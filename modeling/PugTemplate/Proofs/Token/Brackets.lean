import Mathlib.Data.List.Basic
import PugTemplate.Token.Lexer
/-!
# Brackets among tokens

Four pairs of tokens enclose others: indents and outdents, the ends of attribute lists, of blocks of
text, and of tag interpolations. A token list is read against a stack of the brackets that are open.
-/

namespace PugTemplate

open List

/-! ## Open brackets -/

inductive Bracket where
  | indent (width : Nat)
  | attributes
  | pipelessText
  | interpolation
  deriving DecidableEq

def Bracket.width? : Bracket → Option Nat
  | .indent width => some width
  | _ => none

/-- The brackets that are open after a token, the innermost first, unless it closes one that is not
the innermost one. -/
def openAfter : TokenKind → List Bracket → Option (List Bracket)
  | .indent width, o => some (.indent width :: o)
  | .outdent, .indent _ :: o => some o
  | .outdent, _ => none
  | .startAttributes, o => some (.attributes :: o)
  | .endAttributes, .attributes :: o => some o
  | .endAttributes, _ => none
  | .startPipelessText, o => some (.pipelessText :: o)
  | .endPipelessText, .pipelessText :: o => some o
  | .endPipelessText, _ => none
  | .startInterpolation, o => some (.interpolation :: o)
  | .endInterpolation, .interpolation :: o => some o
  | .endInterpolation, _ => none
  | _, o => some o

def opened (o : List Bracket) : List Token → Option (List Bracket)
  | [] => some o
  | t :: ts => (openAfter t.kind o).bind fun o => opened o ts

def TokenKind.isAttribute : TokenKind → Bool
  | .attribute _ _ _ => true
  | _ => false

/-- **The rules for brackets** in a token list. -/
structure WellBracketed (tokens : List Token) : Prop where
  /-- Every bracket is closed, and only the innermost one at a time. -/
  closed : opened [] tokens = some []
  /-- The list ends with the one token for its end. -/
  ends : ∃ front last, tokens = front ++ [last] ∧ last.kind = .eos ∧ ∀ t ∈ front, t.kind ≠ .eos
  /-- A list of attributes has nothing else in it. -/
  attributes : ∀ front t back o, tokens = front ++ t :: back →
    opened [] front = some (.attributes :: o) → t.kind.isAttribute = true ∨ t.kind = .endAttributes
  /-- Indents grow from the outside to the inside. -/
  widths : ∀ front back o, tokens = front ++ back → opened [] front = some o →
    (o.filterMap Bracket.width?).Pairwise (· > ·)
  /-- Interpolations stay within the limit. -/
  depth : ∀ front back o, tokens = front ++ back → opened [] front = some o →
    o.count .interpolation ≤ maxInterpolationDepth

/-! ## Paths -/

/-- Open brackets that keep the rules. -/
structure Proper (o : List Bracket) : Prop where
  widths : (o.filterMap Bracket.width?).Pairwise (· > ·)
  depth : o.count .interpolation ≤ maxInterpolationDepth

theorem Proper.nil : Proper [] := ⟨.nil, Nat.zero_le _⟩

/-- Tokens that keep the rules, from the brackets before them to those after. -/
inductive Nests : List Bracket → List Token → List Bracket → Prop where
  | nil {o} : Nests o [] o
  | cons {o mid o' t ts} (hstep : openAfter t.kind o = some mid)
      (hattributes : o.head? = some .attributes → t.kind.isAttribute = true ∨ t.kind = .endAttributes)
      (hmid : Proper mid) (h : Nests mid ts o') : Nests o (t :: ts) o'

namespace Nests

variable {o mid o' : List Bracket} {t : Token} {ts us : List Token}

theorem append (h : Nests o ts mid) (h' : Nests mid us o') : Nests o (ts ++ us) o' := by
  induction h with
  | nil => exact h'
  | cons hs ha hm _ ih => exact .cons hs ha hm (ih h')

theorem single (hs : openAfter t.kind o = some o') (ha : o.head? ≠ some .attributes)
    (ho' : Proper o') : Nests o [t] o' :=
  .cons hs (fun h => absurd h ha) ho' .nil

theorem split (h : Nests o (ts ++ us) o') : ∃ mid, Nests o ts mid ∧ Nests mid us o' := by
  induction ts generalizing o with
  | nil => exact ⟨o, .nil, h⟩
  | cons t ts ih =>
    cases h with
    | cons hs ha hm h =>
      obtain ⟨mid, ht, hu⟩ := ih h
      exact ⟨mid, .cons hs ha hm ht, hu⟩

theorem opened_eq (h : Nests o ts o') : opened o ts = some o' := by
  induction h with
  | nil => rfl
  | cons hs _ _ _ ih => rw [opened, hs, Option.bind_some, ih]

theorem proper (h : Nests o ts o') (ho : Proper o) : Proper o' := by
  induction h with
  | nil => exact ho
  | cons _ _ hm _ ih => exact ih hm

theorem of_opened {back : List Token} (h : Nests o (ts ++ back) o') (hm : opened o ts = some mid) :
    Nests o ts mid ∧ Nests mid back o' := by
  obtain ⟨mid', ht, hb⟩ := h.split
  obtain rfl : mid' = mid := Option.some.inj (ht.opened_eq.symm.trans hm)
  exact ⟨ht, hb⟩

/-- **A list that closes what it opens** is well bracketed if it has one end. -/
theorem wellBracketed (h : Nests [] ts [])
    (hen : ∃ front last, ts = front ++ [last] ∧ last.kind = .eos ∧ ∀ t ∈ front, t.kind ≠ .eos) :
    WellBracketed ts where
  closed := h.opened_eq
  ends := hen
  attributes := by
    rintro front t back o rfl ho
    cases (h.of_opened ho).2 with
    | cons _ ha _ _ => exact ha rfl
  widths := by
    rintro front back o rfl ho
    exact ((h.of_opened ho).1.proper .nil).widths
  depth := by
    rintro front back o rfl ho
    exact ((h.of_opened ho).1.proper .nil).depth

end Nests

/-! ## Lists that stand anywhere -/

/-- A token that neither opens nor closes anything, and is not the last one. -/
def TokenKind.isPlain : TokenKind → Bool
  | .indent _ => false
  | .outdent => false
  | .startAttributes => false
  | .endAttributes => false
  | .startPipelessText => false
  | .endPipelessText => false
  | .startInterpolation => false
  | .endInterpolation => false
  | .eos => false
  | _ => true

theorem openAfter_of_isPlain {k : TokenKind} (hk : k.isPlain) (o : List Bracket) :
    openAfter k o = some o := by
  cases k <;> first | rfl | exact absurd hk Bool.false_ne_true

/-- Tokens that leave what is open as it is, wherever interpolations may still be nested to a depth.
-/
structure Flat (depth : Nat) (ts : List Token) : Prop where
  nests : ∀ o, Proper o → o.head? ≠ some .attributes →
    o.count .interpolation + depth ≤ maxInterpolationDepth → Nests o ts o
  ne_eos : ∀ t ∈ ts, t.kind ≠ .eos

namespace Flat

variable {depth : Nat} {t first last : Token} {ts us : List Token}

theorem nil : Flat depth [] := ⟨fun _ _ _ _ => .nil, fun _ ht => absurd ht not_mem_nil⟩

theorem append (hts : Flat depth ts) (hu : Flat depth us) : Flat depth (ts ++ us) where
  nests o ho ha hd :=
    (hts.nests o ho ha hd).append (hu.nests o ho ha hd)
  ne_eos t ht := (mem_append.mp ht).elim (hts.ne_eos t) (hu.ne_eos t)

theorem plain (ht : t.kind.isPlain) : Flat depth [t] where
  nests o ho ha _ := .single (openAfter_of_isPlain ht o) ha ho
  ne_eos u hu heo := by
    rw [mem_singleton.mp hu] at heo
    rw [heo] at ht
    exact absurd ht Bool.false_ne_true

theorem ne_eos_enclose (hts : ∀ t ∈ ts, t.kind ≠ .eos) (hf : first.kind ≠ .eos)
    (hl : last.kind ≠ .eos) : ∀ t ∈ first :: (ts ++ [last]), t.kind ≠ .eos := by
  intro t ht
  simp only [mem_cons, mem_append, not_mem_nil, or_false] at ht
  obtain rfl | ht | rfl := ht
  · exact hf
  · exact hts t ht
  · exact hl

theorem pipelessText (ht : Flat depth ts) (hf : first.kind = .startPipelessText)
    (hl : last.kind = .endPipelessText) : Flat depth (first :: (ts ++ [last])) where
  nests o ho ha hd := by
    have hop : Proper (.pipelessText :: o) := ⟨ho.widths, by simpa using ho.depth⟩
    have hm := ht.nests (.pipelessText :: o) hop (by simp) (by simpa using hd)
    refine .cons (by rw [hf]; rfl) (fun h => absurd h ha) hop (hm.append ?_)
    exact .single (by rw [hl]; rfl) (by simp) ho
  ne_eos := ne_eos_enclose ht.ne_eos (by simp [hf]) (by simp [hl])

theorem interpolation (ht : Flat depth ts) (hf : first.kind = .startInterpolation)
    (hl : last.kind = .endInterpolation) : Flat (depth + 1) (first :: (ts ++ [last])) where
  nests o ho ha hd := by
    have hc : (Bracket.interpolation :: o).count .interpolation + depth ≤
        maxInterpolationDepth := by
      rw [count_cons_self]
      omega
    have hop : Proper (.interpolation :: o) := ⟨ho.widths, by omega⟩
    have hm := ht.nests (.interpolation :: o) hop (by simp) hc
    refine .cons (by rw [hf]; rfl) (fun h => absurd h ha) hop (hm.append ?_)
    exact .single (by rw [hl]; rfl) (by simp) ho
  ne_eos := ne_eos_enclose ht.ne_eos (by simp [hf]) (by simp [hl])

theorem attributes (hts : ∀ t ∈ ts, t.kind.isAttribute)
    (hf : first.kind = .startAttributes) (hl : last.kind = .endAttributes) :
    Flat depth (first :: (ts ++ [last])) where
  nests o ho hatt hd := by
    have hop : Proper (.attributes :: o) := ⟨ho.widths, by simpa using ho.depth⟩
    have hm : Nests (.attributes :: o) ts (.attributes :: o) := by
      induction ts with
      | nil => exact .nil
      | cons t ts ih =>
        have ht := hts t (mem_cons_self ..)
        refine .cons (openAfter_of_isPlain ?_ _) (fun _ => .inl ht) hop
          (ih fun u hu => hts u (mem_cons_of_mem _ hu))
        cases hk : t.kind <;> first | rfl | simp [hk, TokenKind.isAttribute] at ht
    refine .cons (by rw [hf]; rfl) (fun h => absurd h hatt) hop (hm.append ?_)
    exact .cons (by rw [hl]; rfl) (fun _ => .inr hl) ho .nil
  ne_eos := by
    refine ne_eos_enclose (fun t ht heo => ?_) (by simp [hf]) (by simp [hl])
    have ha := hts t ht
    rw [heo] at ha
    exact absurd ha Bool.false_ne_true

end Flat
end PugTemplate
