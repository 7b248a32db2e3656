import PugTemplate.Markup.Attribute
/-!
# Laws of escaping

Escaping writes each special character as an entity. An entity starts with `&`, and there is no
other `&` in an escaped text, so the number of these tells how many special characters there were.
-/

namespace PugTemplate

open List
namespace Markup

/-- Characters with the special ones as entities. -/
def escapeChars (cs : List Char) : List Char := cs.flatMap escapeChar

@[simp] theorem toList_escape (text : String) : (escape text).toList = escapeChars text.toList := by
  simp [escape, escapeChars]

@[simp] theorem escapeChars_nil : escapeChars [] = [] := rfl

@[simp] theorem escapeChars_cons (c : Char) (cs : List Char) :
    escapeChars (c :: cs) = escapeChar c ++ escapeChars cs := rfl

@[simp] theorem escapeChars_append (as bs : List Char) :
    escapeChars (as ++ bs) = escapeChars as ++ escapeChars bs := flatMap_append

/-! ## Single characters -/

variable {c : Char} {as bs cs q u : List Char}

theorem escapeChar_of_ordinary (h : isSpecial c = false) : escapeChar c = [c] := by
  simp only [isSpecial, Bool.or_eq_false_iff] at h
  simp [escapeChar, h.1.1.1, h.1.1.2, h.1.2, h.2]

/-- A special character is written as an entity, which has one `&`. -/
theorem escapeChar_of_special (h : isSpecial c) :
    ∃ entity, escapeChar c = '&' :: entity ∧ '&' ∉ entity := by
  simp only [isSpecial, Bool.or_eq_true, beq_iff_eq] at h
  rcases h with ((rfl | rfl) | rfl) | rfl
  · exact ⟨"quot;".toList, rfl, by decide⟩
  · exact ⟨"amp;".toList, rfl, by decide⟩
  · exact ⟨"lt;".toList, rfl, by decide⟩
  · exact ⟨"gt;".toList, rfl, by decide⟩

theorem escapeChar_ne_nil (c : Char) : escapeChar c ≠ [] := by
  cases h : isSpecial c with
  | true =>
    obtain ⟨entity, hen, -⟩ := escapeChar_of_special h
    simp [hen]
  | false => simp [escapeChar_of_ordinary h]

theorem count_escapeChar (c : Char) : (escapeChar c).count '&' = if isSpecial c then 1 else 0 := by
  cases h : isSpecial c with
  | true =>
    obtain ⟨entity, hen, ha⟩ := escapeChar_of_special h
    simp [hen, count_eq_zero.mpr ha]
  | false =>
    have ha : c ≠ '&' := by
      rintro rfl
      exact absurd h (by decide)
    simp [escapeChar_of_ordinary h, ha]

/-! ## Texts -/

/-- **An escaped text has one `&` for each special character.** -/
theorem count_escape (cs : List Char) : (escapeChars cs).count '&' = cs.countP isSpecial := by
  induction cs with
  | nil => rfl
  | cons c cs ih =>
    rw [escapeChars_cons, count_append, ih, count_escapeChar, countP_cons, Nat.add_comm]

theorem escape_of_ordinary (h : cs.countP isSpecial = 0) : escapeChars cs = cs := by
  induction cs with
  | nil => rfl
  | cons c cs ih =>
    rw [countP_eq_zero] at h
    have hc : isSpecial c = false := by simpa using h c mem_cons_self
    have hcs : cs.countP isSpecial = 0 :=
      countP_eq_zero.mpr fun d hd => h d (mem_cons_of_mem c hd)
    rw [escapeChars_cons, escapeChar_of_ordinary hc, ih hcs, singleton_append]

theorem escape_eq_nil : escapeChars cs = [] ↔ cs = [] := by
  cases cs with
  | nil => simp
  | cons c cs => simp [escapeChar_ne_nil]

/-- A text with characters in the places of entities. -/
def decodeEntities : List Char → List Char
  | '&' :: 'q' :: 'u' :: 'o' :: 't' :: ';' :: cs => '"' :: decodeEntities cs
  | '&' :: 'a' :: 'm' :: 'p' :: ';' :: cs => '&' :: decodeEntities cs
  | '&' :: 'l' :: 't' :: ';' :: cs => '<' :: decodeEntities cs
  | '&' :: 'g' :: 't' :: ';' :: cs => '>' :: decodeEntities cs
  | c :: cs => c :: decodeEntities cs
  | [] => []

theorem decodeEntities_escapeChars (cs : List Char) : decodeEntities (escapeChars cs) = cs := by
  induction cs with
  | nil => rfl
  | cons c cs ih =>
    rw [escapeChars_cons]
    cases h : isSpecial c with
    | true =>
      simp only [isSpecial, Bool.or_eq_true, beq_iff_eq] at h
      rcases h with ((rfl | rfl) | rfl) | rfl <;> exact congrArg _ ih
    | false =>
      have ha : c ≠ '&' := by
        rintro rfl
        cases h
      rw [escapeChar_of_ordinary h, singleton_append, decodeEntities, ih] <;> simp_all

theorem escape_inj (h : escapeChars as = escapeChars bs) : as = bs := by
  rw [← decodeEntities_escapeChars as, h, decodeEntities_escapeChars]

/-- There is one `&` with a given number of others before it. -/
theorem append_amp_inj {p p' q' : List Char} (hc : p.count '&' = p'.count '&')
    (h : p ++ '&' :: q = p' ++ '&' :: q') : p = p' ∧ q = q' := by
  induction p generalizing p' with
  | nil =>
    cases p' with
    | nil => simpa using h
    | cons c p' =>
      simp only [nil_append, cons_append, cons.injEq] at h
      rw [← h.1] at hc
      exact absurd hc (by simp)
  | cons c p ih =>
    cases p' with
    | nil =>
      simp only [nil_append, cons_append, cons.injEq] at h
      rw [h.1] at hc
      exact absurd hc (by simp)
    | cons d p' =>
      simp only [cons_append, cons.injEq] at h
      obtain ⟨rfl, hr⟩ := h
      rw [count_cons, count_cons, Nat.add_right_cancel_iff] at hc
      obtain ⟨rfl, rfl⟩ := ih hc hr
      exact ⟨rfl, rfl⟩

/-! ## Texts that stay different -/

/-- What may stand behind a class name: nothing, or a space and more names. -/
def Trails (cs : List Char) : Prop := ∀ c ∈ cs.head?, c = ' '

/-- Two texts that stay different, whatever names follow behind them. -/
def Apart (x y : List Char) : Prop := ∀ u w, Trails u → Trails w → x ++ u ≠ y ++ w

theorem trails_nil : Trails [] := by simp [Trails]

theorem trails_space (cs : List Char) : Trails (' ' :: cs) := by simp [Trails]

theorem Trails.escape_append (hc : Trails cs) (hu : Trails u) : Trails (escapeChars cs ++ u) := by
  cases cs with
  | nil => exact hu
  | cons c cs =>
    rw [hc c rfl]
    exact trails_space _

/-- A text never equals its escaped form moved back by some letters: to find the letters at its
start it needs them again behind them, up to the end, where there are none left. -/
theorem shifted_escape_ne {r w : List Char} (hn : q ≠ [])
    (hq : ∀ c ∈ q, isSpecial c = false ∧ c ≠ ' ') (hw : Trails w) :
    q ++ (escapeChars r ++ u) ≠ r ++ w := by
  induction r generalizing q with
  | nil =>
    obtain ⟨c, q, rfl⟩ := exists_cons_of_ne_nil hn
    intro h
    have hc : c = ' ' := hw c (by rw [show w = _ from h.symm]; simp)
    exact (hq c mem_cons_self).2 hc
  | cons d r ih =>
    obtain ⟨c, q, rfl⟩ := exists_cons_of_ne_nil hn
    intro h
    simp only [cons_append, cons.injEq] at h
    obtain ⟨rfl, hr⟩ := h
    have hc := hq c mem_cons_self
    rw [escapeChars_cons, escapeChar_of_ordinary hc.1] at hr
    -- the first letter goes to the end of the others
    apply ih (q := q ++ [c]) (by simp) (fun e he => ?_)
    · simpa using hr
    · rcases mem_append.mp he with he | he
      · exact hq e (mem_cons_of_mem c he)
      · rw [mem_singleton.mp he]
        exact hc

theorem apart_escape (h : cs.countP isSpecial ≠ 0) : Apart (escapeChars cs) cs := by
  induction cs with
  | nil => exact absurd rfl h
  | cons c cs ih =>
    intro u w hu hw heq
    rw [escapeChars_cons] at heq
    cases hc : isSpecial c with
    | true =>
      obtain ⟨entity, hen, -⟩ := escapeChar_of_special hc
      have ha : c = '&' := by
        rw [hen] at heq
        exact (cons.inj heq).1.symm
      subst ha
      have hs : ['a', 'm', 'p', ';'] ++ (escapeChars cs ++ u) = cs ++ w :=
        (cons.inj heq).2
      have hl : ∀ c ∈ ['a', 'm', 'p', ';'], isSpecial c = false ∧ c ≠ ' ' := by
        simp [isSpecial]
      exact shifted_escape_ne (cons_ne_nil _ _) hl hw hs
    | false =>
      rw [escapeChar_of_ordinary hc] at heq
      have hcs : cs.countP isSpecial ≠ 0 := by
        rwa [countP_cons_of_neg (by simp [hc])] at h
      exact ih hcs u w hu hw (cons.inj heq).2

end Markup
end PugTemplate
