import PugTemplate.Proofs.Token.TagLines
/-!
# Templates from their tokens

A template of plain lines can be rebuilt from its tokens: each line is a tag with classes, a list of
quoted attributes and a text, and every token of these says where its spelling starts.
-/

namespace PugTemplate

/-- The tokens of a template that stand for something are those of its lines. -/
theorem tokenize_template {file : Option String} {validator : Validator}
    {lines : List (Nat × TagLine)} (hf : ∀ line ∈ lines.head?, line.1 = 0)
    (hi : isIndented [] (lines.map (·.1)))
    (hv : ∀ line ∈ lines, ∀ a ∈ line.2.attributes.getD [], validator a.literal = none) :
    ∃ tokens, tokenize { file, validator } (joinLines (lines.map writtenTag)) = .ok tokens ∧
      tokens.filter Token.isSpelled = templateTokens 1 lines := by
  have ho := @outcome_tokenize file validator lines hf hv
  cases ht : tokenize { file, validator } (joinLines (lines.map writtenTag)) with
  | error d =>
    rw [ht] at ho
    obtain ⟨i, hl, -⟩ := ho
    exact absurd hl.1 (not_offends_of_isIndented .nil hi i)
  | ok tokens =>
    rw [ht] at ho
    exact ⟨tokens, rfl, ho.2.2⟩

/-- **Templates from their tokens.** A template of tags with free names is read, and every tag,
class, attribute, text and parenthesis among its tokens is placed where its spelling starts. So the
tokens give every line again when they are written down at their places. -/
theorem tokenize_rebuilds (file : Option String) (validator : Validator)
    (lines : List (Nat × TagLine)) (hfirst : ∀ line ∈ lines.head?, line.1 = 0)
    (hindented : isIndented [] (lines.map (·.1)) = true)
    (hvalidator : ∀ line ∈ lines, ∀ a ∈ line.2.attributes.getD [], validator a.literal = none) :
    ∃ tokens, tokenize { file, validator } (joinLines (lines.map writtenTag)) = .ok tokens ∧
      (∀ t ∈ tokens, ∀ text, t.kind.spelling? = some text →
        ∃ line, lines[t.position.line - 1]? = some line ∧ 0 < t.position.line ∧
          0 < t.position.column ∧ text <+: (writtenTag line).drop (t.position.column - 1)) ∧
      ∀ i line, lines[i]? = some line → rebuilt tokens (i + 1) = writtenTag line := by
  obtain ⟨tokens, htokens, hspelled⟩ := @tokenize_template file _ _ hfirst hindented hvalidator
  refine ⟨tokens, htokens, ?_, ?_⟩
  · intro t ht text htext
    have hmem : t ∈ templateTokens 1 lines := by
      rw [← hspelled]
      exact List.mem_filter.mpr ⟨ht, by rw [Token.isSpelled, htext]; rfl⟩
    obtain ⟨cells, hcells, hcolumn, hstands⟩ := Cell.spelling_prefix_sheet hmem htext
    rw [List.getElem?_map, Option.map_eq_some_iff] at hcells
    obtain ⟨line, hline, rfl⟩ := hcells
    rw [TagLine.line_cells] at hstands
    exact ⟨line, hline, Cell.le_line_of_mem_sheet hmem, hcolumn, hstands⟩
  · intro i line hline
    have hcells : ∀ cells ∈ lines.map fun line => line.2.cells line.1,
        ∀ c ∈ cells, c.kind.spelling?.isSome = true :=
      List.forall_mem_map.mpr fun line _ => line.2.isSome_spelling? line.1
    have hi : (lines.map fun line => line.2.cells line.1)[i]? = some (line.2.cells line.1) := by
      rw [List.getElem?_map, hline]
      rfl
    rw [← Cell.rebuilt_filter, hspelled, Nat.add_comm, templateTokens,
      Cell.rebuilt_sheet hcells hi, TagLine.line_cells]

/-- A form and a frame in it, with names that start with keywords. -/
theorem tokenize_rebuilds_form :
    let form : TagLine :=
      { name := "form", classes := ["a", "b-c"],
        attributes := some [{ name := "x", value := "y 1" }, { name := "z", value := "" }],
        text := some "Hi, you?" }
    let frame : TagLine :=
      { name := "iframe", classes := ["f"], attributes := some [], text := some "none" }
    let source := "form.a.b-c(x='y 1' z='') Hi, you?\n  iframe.f() none"
    joinLines ([(0, form), (2, frame)].map writtenTag) = source ∧
      ∃ tokens, tokenize {} source = .ok tokens ∧
        rebuilt tokens 1 = "form.a.b-c(x='y 1' z='') Hi, you?".toList ∧
        rebuilt tokens 2 = "  iframe.f() none".toList := by
  intro form frame source
  have hsource : joinLines ([(0, form), (2, frame)].map writtenTag) = source := by decide +kernel
  refine ⟨hsource, ?_⟩
  obtain ⟨tokens, htokens, -, hlines⟩ := tokenize_rebuilds none .acceptAll
    [(0, form), (2, frame)] (by simp) (by decide) (by decide +kernel)
  rw [hsource] at htokens
  exact ⟨tokens, htokens, (hlines 0 _ rfl).trans (by decide +kernel),
    (hlines 1 _ rfl).trans (by decide +kernel)⟩

/-- The name of a tag that is no keyword, but starts with the word for the type of the document: the
line is not read as a tag, and not given again. -/
theorem rebuilt_doctypes :
    Pattern.tagName? "doctypes".toList = some "doctypes".toList ∧ "doctypes" ∉ keywords ∧
      (tokenize {} "doctypes").toOption.map (fun tokens => (tokens, rebuilt tokens 1)) =
        some ([⟨.doctype "s", ⟨1, 1⟩⟩, ⟨.eos, ⟨1, 9⟩⟩], []) := by
  decide +kernel

end PugTemplate
