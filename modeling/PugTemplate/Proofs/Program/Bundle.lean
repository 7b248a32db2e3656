import Mathlib.Data.List.Nodup
import Mathlib.Logic.Relation
import PugTemplate.Program.Helper
/-!
# The helpers that helpers need

Some helpers call each other in turn, so what a helper needs cannot be followed down to an end.
Copies of helpers are found in rounds; a round adds what is called by those that are there. What
comes of several helpers is what comes of each of them alone, and for a single one there are enough
rounds.
-/

namespace PugTemplate

open List
namespace Program
namespace Helper

variable {helpers : List Helper} {g h : Helper}

theorem mem_all (h : Helper) : h ∈ all := by cases h <;> decide

theorem nodup_all : all.Nodup := by decide

/-! ## Needs -/

def Calls (g h : Helper) : Prop := h ∈ g.dependencies

/-- One helper needs another: there is a chain of calls, or they are the same. -/
abbrev Needs : Helper → Helper → Prop := Relation.ReflTransGen Calls

def rounds (n : List Helper) (helpers : List Helper) : List Helper :=
  n.foldl (fun acc _ => expand acc) helpers

theorem mem_expand_iff : h ∈ expand helpers ↔ ∃ g ∈ helpers, g = h ∨ Calls g h := by
  unfold expand Calls
  rw [mem_filter]
  constructor
  · rintro ⟨-, hk⟩
    rcases Bool.or_eq_true_iff.mp hk with hm | ha
    · exact ⟨h, by simpa using hm, .inl rfl⟩
    · obtain ⟨g, hg, hc⟩ := any_eq_true.mp ha
      exact ⟨g, hg, .inr (by simpa using hc)⟩
  · rintro ⟨g, hg, rfl | hc⟩
    · exact ⟨mem_all g, by simp [hg]⟩
    · refine ⟨mem_all h, Bool.or_eq_true_iff.mpr (.inr ?_)⟩
      exact any_eq_true.mpr ⟨g, hg, by simpa using hc⟩

theorem mem_rounds_iff (n : List Helper) :
    h ∈ rounds n helpers ↔ ∃ g ∈ helpers, h ∈ rounds n [g] := by
  induction n generalizing helpers with
  | nil => simp [rounds]
  | cons r n ih =>
    show h ∈ rounds n (expand helpers) ↔ ∃ g ∈ helpers, h ∈ rounds n (expand [g])
    rw [ih]
    constructor
    · rintro ⟨k, hk, hh⟩
      obtain ⟨g, hg, hgk⟩ := mem_expand_iff.mp hk
      have hk' : k ∈ expand [g] := mem_expand_iff.mpr ⟨g, mem_singleton_self g, hgk⟩
      exact ⟨g, hg, ih.mpr ⟨k, hk', hh⟩⟩
    · rintro ⟨g, hg, hh⟩
      obtain ⟨k, hk, hh⟩ := ih.mp hh
      obtain ⟨g', hg', hgk⟩ := mem_expand_iff.mp hk
      rw [mem_singleton.mp hg'] at hgk
      exact ⟨k, mem_expand_iff.mpr ⟨g, hg, hgk⟩, hh⟩

theorem needs_of_mem_rounds (n : List Helper) (hm : h ∈ rounds n helpers) :
    ∃ g ∈ helpers, Needs g h := by
  induction n generalizing helpers with
  | nil => exact ⟨h, hm, .refl⟩
  | cons r n ih =>
    have hr : h ∈ rounds n (expand helpers) := hm
    obtain ⟨k, hk, hn⟩ := ih hr
    obtain ⟨g, hg, rfl | hc⟩ := mem_expand_iff.mp hk
    · exact ⟨g, hg, hn⟩
    · exact ⟨g, hg, .head hc hn⟩

theorem closure_eq_rounds : closure helpers = rounds all (all.filter helpers.contains) := rfl

theorem mem_closure_iff_rounds : h ∈ closure helpers ↔ ∃ g ∈ helpers, h ∈ rounds all [g] := by
  rw [closure_eq_rounds, mem_rounds_iff]
  simp [mem_all]

theorem mem_rounds_of_needs (hn : Needs g h) : h ∈ rounds all [g] := by
  have hf : ∀ g ∈ all, g ∈ rounds all [g] := by decide
  have hc : ∀ g ∈ all, ∀ h ∈ rounds all [g], ∀ k ∈ h.dependencies, k ∈ rounds all [g] := by
    decide
  induction hn with
  | refl => exact hf g (mem_all g)
  | tail _ hca ih => exact hc g (mem_all g) _ ih _ hca

/-- **The helpers that are found** are those that some of the helpers need. -/
theorem mem_closure_iff : h ∈ closure helpers ↔ ∃ g ∈ helpers, Needs g h := by
  rw [mem_closure_iff_rounds]
  constructor
  · rintro ⟨g, hg, hh⟩
    obtain ⟨g', hg', hn⟩ := needs_of_mem_rounds all hh
    rw [mem_singleton.mp hg'] at hn
    exact ⟨g, hg, hn⟩
  · rintro ⟨g, hg, hn⟩
    exact ⟨g, hg, mem_rounds_of_needs hn⟩

theorem nodup_rounds (n : List Helper) (hn : helpers.Nodup) : (rounds n helpers).Nodup := by
  induction n generalizing helpers with
  | nil => exact hn
  | cons r n ih => exact ih (nodup_all.filter _)

theorem nodup_closure : (closure helpers).Nodup := nodup_rounds all (nodup_all.filter _)

/-! ## Sources -/

/-- The helpers that stand before a program which calls some of them. -/
def bundled (helpers : List Helper) : List Helper := closure (helpers.filter fun h => !h.isInternal)

theorem source_ne_empty (h : Helper) : h.source ≠ "" := by
  cases h <;> decide

theorem nodup_map_source (hn : helpers.Nodup) : (helpers.map source).Nodup := by
  have ha : (all.map source).Nodup := by decide +kernel
  refine hn.map_on fun g _ h _ hs => ?_
  exact inj_on_of_nodup_map ha (mem_all g) (mem_all h) hs

theorem intercalate_append_eq_join (line : String) (lines : List String) :
    String.intercalate "\n" (line :: lines) ++ "\n" =
      String.join ((line :: lines).map (· ++ "\n")) := by
  induction lines generalizing line with
  | nil => simp
  | cons next lines ih =>
    rw [String.intercalate_cons_cons, String.append_assoc, ih]
    simp only [map_cons, String.join_cons]

/-- **The text before a program** is made of the sources of helpers, each on lines of its own. -/
theorem bundle_eq_join (helpers : List Helper) :
    (if (bundle helpers).isEmpty then "" else bundle helpers ++ "\n") =
      String.join ((bundled helpers).map fun h => h.source ++ "\n") := by
  have hb : bundle helpers = String.intercalate "\n" ((bundled helpers).map source) := rfl
  cases hbu : bundled helpers with
  | nil =>
    rw [hbu] at hb
    rw [hb]
    rfl
  | cons h rest =>
    rw [hbu, map_cons] at hb
    have hl : bundle helpers ++ "\n" = String.join (((h :: rest).map source).map (· ++ "\n")) := by
      rw [hb]
      exact intercalate_append_eq_join _ _
    have hf : ¬(bundle helpers).isEmpty := by
      rw [String.isEmpty_iff, hb]
      cases rest with
      | nil => simpa using source_ne_empty h
      | cons next rest =>
        rw [map_cons, String.intercalate_cons_cons, String.append_eq_empty_iff,
          String.append_eq_empty_iff]
        exact fun hem => source_ne_empty h hem.1.1
    rw [if_neg hf, hl, map_map]
    rfl

end Helper
end Program
end PugTemplate
