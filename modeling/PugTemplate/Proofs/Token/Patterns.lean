import Mathlib.Data.List.Infix
import Mathlib.Data.List.TakeWhile
import PugTemplate.Token.Pattern
/-!
# Laws of the patterns

What the patterns of template text find when the front of the text is known: a word that is not
there, or a name that something else follows.
-/

namespace PugTemplate

open List Option
namespace Pattern

/-! ## Words -/

section Words

variable {word : String} {cs : List Char}

theorem afterWord?_eq_none : afterWord? word cs = none ↔ ¬word.toList <+: cs := by
  rw [← not_isSome_iff_eq_none, isSome_iff_exists]
  refine not_congr ⟨?_, ?_⟩
  · rintro ⟨rest, h⟩
    exact ⟨rest, isPrefixOf?_eq_some_iff_append_eq.mp h⟩
  · rintro ⟨rest, h⟩
    exact ⟨rest, isPrefixOf?_eq_some_iff_append_eq.mpr h⟩

theorem afterWord?_none_of_prefix {longer : String} (hl : word.toList <+: longer.toList)
    (h : afterWord? word cs = none) : afterWord? longer cs = none := by
  rw [afterWord?_eq_none] at h ⊢
  exact fun h' => h (hl.trans h')

theorem atKeyword_eq_false (h : afterWord? word cs = none) : atKeyword word cs = false := by
  unfold atKeyword
  rw [h]

theorem blockLine?_eq_none (h : afterWord? word cs = none) : blockLine? word cs = none := by
  unfold blockLine?
  rw [h]
  rfl

theorem blockCommand?_eq_none (h : afterWord? word cs = none)
    (hb : afterWord? "block" cs = none) : blockCommand? word cs = none := by
  unfold blockCommand?
  rw [blockLine?_eq_none hb, blockLine?_eq_none h]

end Words

/-! ## Classes -/

/-- The dashes that may come before the first letter of a class. -/
def classDashes : List (List Char) := [[], ['-'], ['-', '-']]

variable {c : Char} {cs name more : List Char}

theorem className?_eq {dashes : List Char} (hd : dashes ∈ classDashes) (hc : isClassStart c) :
    className? (dashes ++ c :: cs) = some (dashes ++ c :: cs.takeWhile isClassPart) := by
  have hda : c ≠ '-' := by
    rintro rfl
    exact absurd hc (by decide)
  simp only [classDashes, mem_cons, not_mem_nil, or_false] at hd
  rcases hd with rfl | rfl | rfl <;> simp [className?, hda, hc]

theorem of_className?_eq (h : className? cs = some name) :
    ∃ dashes ∈ classDashes, ∃ c tail, isClassStart c ∧ cs = dashes ++ c :: tail ∧
      name = dashes ++ c :: tail.takeWhile isClassPart := by
  have hda : (cs.take 2).takeWhile (· == '-') ∈ classDashes := by
    match cs with
    | [] => decide
    | [c] => by_cases hc : c = '-' <;> simp [hc, classDashes]
    | c :: d :: _ =>
      by_cases hc : c = '-' <;> by_cases hd : d = '-' <;> simp [hc, hd, classDashes]
  have hp : (cs.take 2).takeWhile (· == '-') <+: cs :=
    ( takeWhile_prefix _).trans ( take_prefix _ _)
  have hcs := prefix_iff_eq_append.mp hp
  unfold className? at h
  dsimp only at h
  split at h
  · rename_i c tail hdr
    rw [hdr] at hcs
    split at h
    · exact ⟨_, hda, c, tail, ‹_›, hcs.symm, (some.inj h).symm⟩
    · exact absurd h (by simp)
  · exact absurd h (by simp)

theorem className?_head (h : className? cs = some name) :
    ∃ c tail, cs = c :: tail ∧ isClassPart c := by
  obtain ⟨dashes, hd, c, tail, hc, rfl, -⟩ := of_className?_eq h
  simp only [classDashes, mem_cons, not_mem_nil, or_false] at hd
  rcases hd with rfl | rfl | rfl
  · exact ⟨c, tail, rfl, by simp [isClassPart, hc]⟩
  · exact ⟨'-', c :: tail, rfl, rfl⟩
  · exact ⟨'-', '-' :: c :: tail, rfl, rfl⟩

theorem endOfLine?_of_className? (h : className? cs = some name) : endOfLine? cs = none := by
  obtain ⟨c, tail, rfl, hc⟩ := className?_head h
  have hco : c ≠ ':' := by
    rintro rfl
    exact absurd hc (by decide)
  have hg : isGap c = false := by
    simp only [isGap, Bool.or_eq_false_iff, beq_eq_false_iff_ne]
    constructor <;>
    · rintro rfl
      exact absurd hc (by decide)
  have hb : c ≠ '\n' := by
    rintro rfl
    exact absurd hc (by decide)
  simp [endOfLine?, hco, hg, hb]

/-! ## Names before something else -/

/-- A run of characters of a class ends where the run itself does, if another character follows. -/
theorem takeWhile_append_eq {p : Char → Bool} {run more : List Char} (hr : run.takeWhile p = run)
    (hm : ∀ c ∈ more.head?, p c = false) : (run ++ more).takeWhile p = run := by
  have ha : ∀ c ∈ run, p c := takeWhile_eq_self_iff.mp hr
  have hn : more.takeWhile p = [] := by
    cases more with
    | nil => rfl
    | cons c cs => simp [hm c rfl]
  rw [takeWhile_append_of_pos ha, hn, append_nil]

theorem of_tagName?_eq (h : tagName? name = some name) :
    ∃ c cs, name = c :: cs ∧ isPlainWord c ∧ cs.takeWhile isTagPart = cs := by
  cases name with
  | nil => simp [tagName?] at h
  | cons c cs =>
    have hc : isPlainWord c := by
      by_contra hc
      simp [tagName?, hc] at h
    simp only [tagName?, hc, if_true, some.injEq, cons.injEq, true_and] at h
    -- The name is the front of the run, which is the front of the text.
    have hl := congrArg length h
    rw [length_reverse] at hl
    refine ⟨c, cs, rfl, hc, ( takeWhile_prefix _).eq_of_length_le ?_⟩
    calc cs.length = _ := hl.symm
      _ ≤ _ := (dropWhile_suffix _).length_le
      _ = (cs.takeWhile isTagPart).length := length_reverse

theorem tagName?_append (hn : tagName? name = some name)
    (hm : ∀ c ∈ more.head?, isTagPart c = false) : tagName? (name ++ more) = some name := by
  obtain ⟨c, cs, rfl, hc, hr⟩ := of_tagName?_eq hn
  simp only [tagName?, hc, if_true, hr] at hn
  rw [cons_append]
  simp only [tagName?, hc, if_true, takeWhile_append_eq hr hm]
  exact hn

theorem isTagPart_of_mem (hn : tagName? name = some name) (h : c ∈ name) :
    isTagPart c := by
  obtain ⟨d, cs, rfl, hd, hr⟩ := of_tagName?_eq hn
  rcases mem_cons.mp h with rfl | h
  · simp [isTagPart, isNamePart, hd]
  · exact takeWhile_eq_self_iff.mp hr c h

theorem of_name?_eq (h : name? name = some name) :
    name ≠ [] ∧ name.takeWhile isNamePart = name := by
  simp only [name?, ite_none_left_eq_some, some.injEq] at h
  obtain ⟨hn, hr⟩ := h
  rw [hr] at hn
  exact ⟨by simpa using hn, hr⟩

theorem name?_append (hn : name? name = some name)
    (hm : ∀ c ∈ more.head?, isNamePart c = false) : name? (name ++ more) = some name := by
  obtain ⟨hne, hr⟩ := of_name?_eq hn
  simp [name?, takeWhile_append_eq hr hm, hne]

theorem isNamePart_of_mem (hn : name? name = some name) (h : c ∈ name) : isNamePart c :=
  takeWhile_eq_self_iff.mp (of_name?_eq hn).2 c h

theorem className?_append (hn : className? name = some name)
    (hm : ∀ c ∈ more.head?, isClassPart c = false) : className? (name ++ more) = some name := by
  obtain ⟨dashes, hd, c, tail, hc, rfl, heq⟩ := of_className?_eq hn
  have ht : tail.takeWhile isClassPart = tail :=
    (cons.inj (append_cancel_left heq)).2.symm
  rw [append_assoc, cons_append, className?_eq hd hc, takeWhile_append_eq ht hm]

theorem isClassPart_of_mem (hn : className? name = some name) (h : c ∈ name) :
    isClassPart c := by
  obtain ⟨dashes, hda, d, tail, hd, rfl, heq⟩ := of_className?_eq hn
  have ht : tail.takeWhile isClassPart = tail :=
    (cons.inj (append_cancel_left heq)).2.symm
  have hdas : classDashes.all (·.all isClassPart) := by decide
  rcases mem_append.mp h with h | h
  · exact all_eq_true.mp (all_eq_true.mp hdas dashes hda) c h
  · rcases mem_cons.mp h with rfl | h
    · simp [isClassPart, hd]
    · exact takeWhile_eq_self_iff.mp ht c h

/-- A word whose characters could all be part of a name is found only inside of the name. -/
theorem afterWord?_append_eq_none {word : String} (hw : ∀ c ∈ word.toList, isTagPart c)
    (h : afterWord? word name = none) (hm : ∀ c ∈ more.head?, isTagPart c = false) :
    afterWord? word (name ++ more) = none := by
  rw [afterWord?_eq_none] at h ⊢
  intro hp
  rcases prefix_or_prefix_of_prefix hp (prefix_append name more) with
    hn | ⟨tail, hl⟩
  · exact h hn
  · rw [← hl, prefix_append_right_inj] at hp
    cases tail with
    | nil => exact h (by simp [← hl])
    | cons c cs =>
      obtain ⟨rest, rfl⟩ := hp
      have hc := hw c (by simp [← hl])
      rw [hm c rfl] at hc
      exact absurd hc (by simp)

end Pattern
end PugTemplate
