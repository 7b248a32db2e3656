import Mathlib.Data.List.Nodup
import PugTemplate.Diagnostic.Basic
import PugTemplate.Proofs.Token.Cuts
/-!
# The caret of an excerpt

An excerpt marks one line of the source, and the row below it holds a caret. A marked number needs one
column more than its digits. It has that column if it is a single digit, or if the next line is shown
too and has a longer number; else the caret is one column too far left.
-/

namespace PugTemplate

open List Text

namespace Diagnostic

def unlines (rows : List String) : String := String.join (rows.map (· ++ "\n"))

theorem unlines_append (rows more : List String) :
    unlines (rows ++ more) = unlines rows ++ unlines more := by
  simp [unlines]

/-- What stands before the text of a line: a mark and the line's number. -/
def numbered (mark : String) (width number : Nat) : String :=
  mark ++ padLeft (width - 1) (toString number) ++ " | "

/-- What stands before a caret: blanks in place of a number. -/
def unnumbered (width : Nat) : String := padLeft width "" ++ " | "

def lineRow (mark : String) (width : Nat) (line : List Char × Nat) : String :=
  numbered mark width line.2 ++ String.ofList line.1

theorem excerptLine_unmarked {p : Position} {width : Nat} {line : List Char × Nat}
    (h : line.2 ≠ p.line) :
    excerptLine .plain p width line.2 line.1 = unlines [lineRow " " width line] := by
  simp [excerptLine, Palette.plain, unlines, lineRow, numbered, h, String.append_assoc]

theorem join_unmarked {p : Position} {width : Nat} {lines : List (List Char × Nat)}
    (h : ∀ line ∈ lines, line.2 ≠ p.line) :
    String.join (lines.map fun line => excerptLine .plain p width line.2 line.1) =
      unlines (lines.map (lineRow " " width)) := by
  induction lines with
  | nil => rfl
  | cons line lines ih =>
    obtain ⟨hl, hls⟩ := forall_mem_cons.mp h
    rw [map_cons, String.join_cons, excerptLine_unmarked hl, ih hls, ← unlines_append]
    rfl

/-! ## Line feeds -/

theorem dropReturn_subset (line : List Char) : dropReturn line ⊆ line := by
  unfold dropReturn
  split
  · rename_i front hr
    rw [← reverse_reverse line, hr, reverse_cons]
    exact subset_append_left _ _
  · exact Subset.refl _

theorem not_mem_lines {cs line : List Char} (h : line ∈ lines cs) : '\n' ∉ line := by
  have hpi : ∃ piece ∈ splitLines cs, line ⊆ piece := by
    have hk : (if (splitLines cs).getLast? == some [] then (splitLines cs).dropLast
        else splitLines cs) ⊆ splitLines cs := by
      split
      · exact dropLast_subset _
      · exact Subset.refl _
    unfold lines at h
    split at h
    · obtain ⟨piece, hp, rfl⟩ := mem_map.mp h
      exact ⟨piece, hk hp, dropReturn_subset piece⟩
    · rcases mem_append.mp h with h | h
      · obtain ⟨piece, hp, rfl⟩ := mem_map.mp h
        exact ⟨piece, hk (dropLast_subset _ hp), dropReturn_subset piece⟩
      · exact ⟨line, hk (mem_of_getLast? (Option.mem_toList.mp h)), Subset.refl _⟩
  obtain ⟨piece, hp, hs⟩ := hpi
  exact fun hm => (mem_splitLines hp).1 (hs hm)

theorem not_mem_lineRow {mark : String} {line : List Char × Nat} (hm : '\n' ∉ mark.toList)
    (hl : '\n' ∉ line.1) (width : Nat) : '\n' ∉ (lineRow mark width line).toList := by
  have hd : '\n' ∉ Nat.toDigits 10 line.2 := fun h =>
    absurd (Nat.isDigit_of_mem_toDigits (by decide) (by decide) h) (by decide)
  simp [lineRow, numbered, padLeft, hm, hl, hd]

/-! ## Excerpts -/

def Unmarked (row : String) : Prop := row.toList.head? = some ' ' ∧ '\n' ∉ row.toList

theorem excerpt_rows {p : Position} (hl : 1 ≤ p.line) {source : String} {text : List Char}
    (ht : (lines source.toList)[p.line - 1]? = some text) {width : Nat}
    (hw : width = numberWidth p.line (lines source.toList).length) :
    ∃ above below, (∀ row ∈ above ++ below, Unmarked row) ∧
      excerpt .plain p source = unlines (above ++ [lineRow ">" width (text, p.line),
        unnumbered width ++ String.ofList (replicate (p.column - 1) ' ') ++ "^"] ++ below) := by
  unfold excerpt
  dsimp only
  rw [← hw]
  generalize hf : max 1 (p.line - 2) = first
  generalize hs : ((lines source.toList).drop (first - 1)).take
    (min (p.line + 1) (lines source.toList).length + 1 - first) = shown
  have hsu : shown ⊆ lines source.toList := hs ▸ Subset.trans (take_subset _ _) (drop_subset _ _)
  have hm : (text, p.line) ∈ shown.zipIdx first := by
    have hlt := (List.getElem?_eq_some_iff.mp ht).1
    refine mk_mem_zipIdx_iff_le_and_getElem?_sub.mpr ⟨by omega, ?_⟩
    rw [← hs, getElem?_take_of_lt (by omega), getElem?_drop, ← ht]
    congr 1
    omega
  -- each number stands once, so no other line is marked
  obtain ⟨above, below, hc⟩ := append_of_mem hm
  have ho : ∀ line ∈ above ++ below, line.2 ≠ p.line := by
    have hn : ((shown.zipIdx first).map (·.2)).Nodup := by
      rw [zipIdx_map_snd]
      exact nodup_range'
    rw [hc, map_append, map_cons, nodup_middle, ← map_append] at hn
    exact fun line h heq => (nodup_cons.mp hn).1 (mem_map.mpr ⟨line, h, heq⟩)
  have hu : ∀ line ∈ above ++ below, Unmarked (lineRow " " width line) := by
    intro line h
    have hz : line ∈ shown.zipIdx first := by
      rw [hc]
      exact ((sublist_cons_self _ _).append_left _).subset h
    exact ⟨by simp [lineRow, numbered],
      not_mem_lineRow (by decide) (not_mem_lines (hsu (fst_mem_of_mem_zipIdx hz))) width⟩
  refine ⟨(padLeft width "" ++ " |") :: above.map (lineRow " " width),
    below.map (lineRow " " width), ?_, ?_⟩
  · rw [cons_append, ← map_append, forall_mem_cons, forall_mem_map]
    refine ⟨⟨?_, by simp [padLeft]⟩, hu⟩
    obtain ⟨n, rfl⟩ := Nat.exists_eq_add_of_le' (hw ▸ Nat.le_max_left .. : 2 ≤ width)
    simp [padLeft, replicate_succ]
  · obtain ⟨ha, hb⟩ := forall_mem_append.mp ho
    rw [hc, map_append, map_cons, String.join_append, String.join_cons, join_unmarked ha,
      join_unmarked hb]
    simp [unlines, excerptLine, lineRow, numbered, unnumbered, Palette.plain, String.append_assoc]

theorem render_excerpt (d : Diagnostic) (hl : 1 ≤ d.position.line) : ∃ header footer, ∀ source,
      d.render .plain source = header ++ excerpt .plain d.position source ++ footer := by
  have hz : (d.position.line == 0) = false := beq_eq_false_iff_ne.mpr (by omega)
  unfold render
  rw [hz]
  exact ⟨_, _, fun source => String.append_assoc ..⟩

theorem length_numbered_iff {line count : Nat} (h : line ≤ count) :
    (numbered ">" (numberWidth line count) line).length =
        (unnumbered (numberWidth line count)).length ↔
      (toString line).length ≤ 1 ∨
        line < count ∧ (toString line).length < (toString (line + 1)).length := by
  have hp (width : Nat) (s : String) : (padLeft width s).length = max width s.length := by
    rw [padLeft, String.length_append, String.length_ofList, length_replicate]
    omega
  simp only [numbered, unnumbered, String.length_append, hp, numberWidth,
    show ">".length = 1 from rfl, show "".length = 0 from rfl]
  rcases Nat.eq_or_lt_of_le h with rfl | hl
  · rw [Nat.min_eq_right (Nat.le_succ line)]
    omega
  · rw [Nat.min_eq_left (show line + 1 ≤ count from hl)]
    omega

/-- **The caret of a diagnostic.** Behind a header that does not depend on the source, one row is marked:
it shows the line of the diagnostic, and the caret is in the next row. What stands before the line and
before the caret is equally wide exactly if the line's number has one digit, or the next line is
there and its number has more digits. -/
theorem render_caret_iff (d : Diagnostic) (hline : 1 ≤ d.position.line) :
    ∃ header footer, ∀ (source : String) (text : List Char),
      (lines source.toList)[d.position.line - 1]? = some text →
      ∃ above mark room below,
        (∀ row ∈ above ++ below, Unmarked row) ∧
        mark.toList.head? = some '>' ∧ '\n' ∉ (mark ++ String.ofList text ++ room).toList ∧
        d.render .plain source = header ++ unlines (above ++
          [mark ++ String.ofList text,
            room ++ String.ofList (replicate (d.position.column - 1) ' ') ++ "^"] ++ below) ++
          footer ∧
        (mark.length = room.length ↔ (toString d.position.line).length ≤ 1 ∨
          d.position.line < (lines source.toList).length ∧
            (toString d.position.line).length < (toString (d.position.line + 1)).length) := by
  obtain ⟨header, footer, hrender⟩ := render_excerpt d hline
  refine ⟨header, footer, fun source text htext => ?_⟩
  obtain ⟨above, below, hunmarked, hrows⟩ := excerpt_rows hline htext rfl
  obtain ⟨hlt, hget⟩ := List.getElem?_eq_some_iff.mp htext
  refine ⟨above, numbered ">" _ d.position.line, unnumbered _, below, hunmarked,
    by simp [numbered], ?_, by rw [hrender, hrows]; rfl, length_numbered_iff (by omega)⟩
  have hrow (width : Nat) : '\n' ∉ (lineRow ">" width (text, d.position.line)).toList :=
    not_mem_lineRow (by decide) (not_mem_lines (hget ▸ getElem_mem hlt)) width
  rw [String.toList_append, mem_append]
  exact not_or.mpr ⟨hrow _, by simp [unnumbered, padLeft]⟩

/-- The caret below the second of three lines stands right. -/
theorem render_caret_second :
    ∃ header above mark room below footer,
      (Diagnostic.mk .duplicateId ⟨2, 4⟩ none none).render .plain "div\n  p(\n  span" =
        header ++ unlines (above ++ [mark ++ "  p(", room ++ "   " ++ "^"] ++ below) ++ footer ∧
      mark.length = room.length := by
  obtain ⟨header, footer, h⟩ := render_caret_iff ⟨.duplicateId, ⟨2, 4⟩, none, none⟩ (by decide)
  obtain ⟨above, mark, room, below, -, -, -, hrender, hroom⟩ :=
    h "div\n  p(\n  span" "  p(".toList (by decide)
  exact ⟨header, above, mark, room, below, footer, hrender, hroom.mpr (.inl (by decide))⟩

/-- The caret below the tenth line is too far left. -/
theorem render_tenth_line :
    (Diagnostic.mk .duplicateId ⟨10, 1⟩ none none).render .plain "a\na\na\na\na\na\na\na\na\nb" =
      "\n file: Pug:10:1\nerror[DUPLICATE_ID]: Duplicate attribute \"id\" is not allowed.\n   |\n" ++
        " 8 | a\n 9 | a\n>10 | b\n   | ^\n\n" := by
  decide +kernel

end Diagnostic
end PugTemplate
