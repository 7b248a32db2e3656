import PugTemplate.Proofs.Token.Bytes
/-!
# The lexer stays inside of its text and ends

Each rule of `ByteLexer` does what the rule of `Setting` does that it stands for. So the lexer over
bytes reads a template as the other one does, and never stops for a slice, a difference or a turn that
goes wrong.
-/

namespace PugTemplate

open List Pattern Text Setting

namespace ByteLexer

open Checked (ok_bind bind_of bind_map)

variable {env : Setting} {depth : Nat} {nested : Option (Lexer → Checked Lexer)} {s : Lexer}
  {front inside : List Char}

/-! ## Words -/

theorem endInterpolation_eq (s : Lexer) : endInterpolation env s = .of (env.endInterpolation s) := by
  unfold endInterpolation
  split
  · rename_i cs hrest
    simp only [Setting.endInterpolation, hrest]
    split
    · rw [consume_eq (n := 1) (show [']'] <+: s.rest from ⟨cs, hrest.symm⟩) rfl, Lexer.consume, hrest]
      rfl
    · rfl
  · simp only [Setting.endInterpolation]
    rfl

theorem loneWord_eq (word : String) (kind : TokenKind) (s : Lexer) :
    loneWord word kind s = .of (.ok (Setting.loneWord word kind s)) := by
  unfold loneWord Setting.loneWord
  cases hword : afterWord? word s.rest with
  | none => rfl
  | some rest =>
    dsimp only
    rw [scanEndOfLine_eq ⟨rest, (afterWord?_cut hword).symm⟩, ok_bind]
    cases s.takeToLineEnd word.toList <;> rfl

theorem endOfLine?_dropWhile {isPart : Char → Bool} (hpart : ∀ c, isPart c = false → c = ':' ∨ c = '\n')
    (cs : List Char) : endOfLine? (cs.dropWhile isPart) = some (cs.dropWhile isPart) := by
  have hout := head?_dropWhile_not isPart cs
  cases hd : cs.dropWhile isPart with
  | nil => rfl
  | cons c rest =>
    rw [hd] at hout
    rcases hpart c hout with rfl | rfl
    · rfl
    · rfl

theorem takeToLineEnd_eq {whole after : List Char} (hrest : s.rest = whole ++ after)
    (hlead : whole.takeWhile (· == ' ') = []) (hafter : endOfLine? after = some after) :
    s.takeToLineEnd whole =
      some (s.position, (s.consume whole.length).advanceColumn whole.length) := by
  rw [Lexer.takeToLineEnd, hrest, drop_left, hafter, hlead, Lexer.consume, hrest, drop_left]
  rfl

theorem isOnLine_eq_false (c : Char) (h : isOnLine c = false) : c = ':' ∨ c = '\n' :=
  .inr (by simpa [isOnLine] using h)

theorem isWhenPart_eq_false (c : Char) (h : isWhenPart c = false) : c = ':' ∨ c = '\n' := by
  by_cases hc : c = ':'
  · exact .inl hc
  · exact .inr (by simpa [isWhenPart, hc] using h)

theorem doctype_eq (s : Lexer) : doctype s = .of (Setting.doctype s) := by
  unfold doctype Setting.doctype
  cases hword : afterWord? "doctype" s.rest with
  | none => rfl
  | some rest =>
    have hcut : s.rest = line s.rest ++ s.rest.dropWhile isOnLine :=
      takeWhile_append_dropWhile.symm
    have hlead : (line s.rest).takeWhile (· == ' ') = [] := by
      rw [afterWord?_cut hword]
      rfl
    dsimp only
    rw [scanEndOfLine_eq ⟨_, hcut.symm⟩, ok_bind, takeToLineEnd_eq hcut hlead
      (endOfLine?_dropWhile isOnLine_eq_false _)]
    rfl

theorem refuseWord_eq (word : String) (cause : Cause) (s : Lexer) : refuseWord env word cause s =
    .of (if atKeyword word s.rest then .error (env.diagnostic cause s) else .ok (false, s)) := by
  unfold refuseWord
  split <;> rfl

theorem defaultCase_eq (s : Lexer) : defaultCase env s = .of (env.defaultCase s) := by
  rw [defaultCase, Setting.defaultCase, loneWord_eq, Checked.of, Except.mapError, ok_bind]
  obtain ⟨_ | _, next⟩ := Setting.loneWord "default" .default s
  · exact refuseWord_eq ..
  · rfl

/-! ## Words with a value -/

theorem spacedValue?_rest {isPart : Char → Bool} {cs spaces value : List Char}
    (h : spacedValue? isPart cs = some (spaces, value)) :
    cs = spaces ++ value ++ (cs.dropWhile (· == ' ')).dropWhile isPart := by
  have hspaces := (takeWhile_append_dropWhile (p := (· == ' ')) (l := cs)).symm
  have hvalue := takeWhile_append_dropWhile (p := isPart) (l := cs.dropWhile (· == ' '))
  unfold spacedValue? at h
  dsimp only at h
  split at h
  · cases h
    rw [append_assoc, hvalue]
    exact hspaces
  · rename_i hsome
    split at h
    · rename_i htwo
      cases h
      -- There are spaces, so there is no value, and the last of the spaces stands for it.
      have hne : cs.takeWhile (· == ' ') ≠ [] := ne_nil_of_length_pos (by omega)
      have hnone : (cs.dropWhile (· == ' ')).takeWhile isPart = [] := by simpa [hne] using hsome
      rw [hnone, nil_append] at hvalue
      rw [dropLast_spaces hne, hvalue]
      exact hspaces
    · cases h

theorem spaced_cut {word : String} {isPart : Char → Bool} {cs spaces value : List Char}
    (h : (afterWord? word cs).bind (spacedValue? isPart) = some (spaces, value)) :
    ∃ after, cs = word.toList ++ spaces ++ value ++ after ∧
      ((∀ c, isPart c = false → c = ':' ∨ c = '\n') → endOfLine? after = some after) := by
  obtain ⟨rest, hrest, hvalue⟩ := Option.bind_eq_some_iff.mp h
  refine ⟨_, ?_, fun hpart => endOfLine?_dropWhile hpart (rest.dropWhile (· == ' '))⟩
  rw [append_assoc word.toList, append_assoc word.toList, ← spacedValue?_rest hvalue]
  exact afterWord?_cut hrest

theorem wordValue?_map (word : String) (isPart : Char → Bool) (s : Lexer) :
    Setting.wordValue? word isPart s = ((afterWord? word s.rest).bind (spacedValue? isPart)).map
      fun (spaces, value) =>
        let width := word.length + spaces.length + value.length
        (value, (s.consume width).advanceColumn width) := by
  unfold Setting.wordValue?
  cases afterWord? word s.rest with
  | none => rfl
  | some rest =>
    show (spacedValue? isPart rest).bind _ = _
    rw [Option.bind_some]
    cases spacedValue? isPart rest <;> rfl

theorem wordValue?_eq {word : String} {isPart : Char → Bool}
    (hword : ∀ more, (word.toList ++ more).takeWhile (· == ' ') = [])
    (hpart : ∀ c, isPart c = false → c = ':' ∨ c = '\n') (s : Lexer) :
    wordValue? word isPart s = .ok (Setting.wordValue? word isPart s) := by
  rw [wordValue?, wordValue?_map]
  cases hfound : (afterWord? word s.rest).bind (spacedValue? isPart) with
  | none => rfl
  | some found =>
    obtain ⟨spaces, value⟩ := found
    obtain ⟨after, hcut, hafter⟩ := spaced_cut hfound
    dsimp only
    rw [scanEndOfLine_eq ⟨_, hcut.symm⟩, ok_bind,
      takeToLineEnd_eq hcut (append_assoc .. ▸ hword _) (hafter hpart)]
    simp only [length_append, String.length_toList]
    rfl

theorem column_wordValue? {word : String} {isPart : Char → Bool} {value : List Char} {next : Lexer}
    (h : Setting.wordValue? word isPart s = some (value, next)) : value.length ≤ next.column := by
  obtain ⟨-, spaces, -, -, hn⟩ := wordValue?_cut h
  rw [hn]
  dsimp only
  omega

theorem valueStart_eq {next : Lexer} {value : List Char} (h : value.length ≤ next.column) :
    valueStart next value = .ok (Setting.valueStart next value) := by
  rw [valueStart, minus_of_le h]
  rfl

theorem case_eq (s : Lexer) : case env s = .of (env.case s) := by
  rw [case, wordValue?_eq (fun _ => rfl) isOnLine_eq_false, ok_bind, Setting.case]
  cases hvalue : Setting.wordValue? "case" isOnLine s with
  | none => exact refuseWord_eq ..
  | some found =>
    dsimp only
    rw [valueStart_eq (column_wordValue? hvalue), ok_bind]
    exact bind_of fun _ _ => rfl

theorem continueWhen_eq {n : Nat} {value : List Char} {s : Lexer} (hn : s.rest.length < n) :
    continueWhen env value s = .of (env.continueWhen n value s) := by
  induction n generalizing value s with
  | zero => exact absurd hn (Nat.not_lt_zero _)
  | succ n ih =>
    rw [continueWhen, Setting.continueWhen]
    cases Nesting.scan value with
    | error fault => rfl
    | ok state =>
      dsimp only
      split
      · rfl
      · split
        · rename_i cs hrest
          simp only [hrest]
          split
          · rfl
          · have hfront : ':' :: cs.takeWhile isWhenPart <+: s.rest := by
              rw [hrest]
              exact (prefix_cons_inj _).mpr ( takeWhile_prefix _)
            have hlt : (s.consume (':' :: cs.takeWhile isWhenPart).length).rest.length <
                (':' :: cs).length := by
              rw [← hrest]
              exact length_drop_lt (by simp [hrest]) (Nat.succ_pos _)
            rw [consume_eq hfront rfl, ok_bind, dif_pos hlt]
            exact ih (by rw [hrest] at hn; exact Nat.lt_of_lt_of_le hlt (Nat.le_of_lt_succ hn))
        · simp only [pure, Except.pure]
          rfl

theorem when_eq (s : Lexer) : when env s = .of (env.when s) := by
  rw [when, wordValue?_eq (fun _ => rfl) isWhenPart_eq_false, ok_bind, Setting.when]
  cases hvalue : Setting.wordValue? "when" isWhenPart s with
  | none => exact refuseWord_eq ..
  | some found =>
    obtain ⟨value, next⟩ := found
    dsimp only
    rw [continueWhen_eq (Nat.lt_succ_self _)]
    refine bind_of fun more hmore => ?_
    have hcolumn : more.1.length ≤ more.2.column := by
      have hgrown := ((yields_continueWhen _ _ _).of_ok hmore).column
      have hstart := column_wordValue? hvalue
      omega
    rw [valueStart_eq hcolumn, ok_bind]
    exact bind_of fun _ _ => rfl

theorem whileLoop_eq (s : Lexer) : whileLoop env s = .of (env.whileLoop s) := by
  rw [whileLoop, Setting.whileLoop, wordValue?_map]
  cases hfound : (afterWord? "while" s.rest).bind (spacedValue? isOnLine) with
  | none => exact refuseWord_eq ..
  | some found =>
    obtain ⟨spaces, value⟩ := found
    obtain ⟨after, hcut, -⟩ := spaced_cut hfound
    have hlength : ("while".toList ++ spaces ++ value).length =
        "while".length + spaces.length + value.length := by
      simp only [length_append, String.length_toList]
    dsimp only [Option.map_some]
    rw [minus_of_le (by omega), ok_bind, consume_eq ⟨_, hcut.symm⟩ rfl, ok_bind,
      hlength]
    exact bind_of fun _ _ => rfl

theorem conditional_eq (s : Lexer) : conditional env s = .of (env.conditional s) := by
  unfold conditional Setting.conditional
  cases hfound : conditionWords.find? fun word => atKeyword word s.rest with
  | none => rfl
  | some word =>
    have hword := find?_some hfound
    obtain ⟨after, hrest⟩ := atKeyword_cut hword
    have hfree : '\n' ∉ word.toList := by
      have hmem := mem_of_find?_eq_some hfound
      simp only [conditionWords, mem_cons, not_mem_nil, or_false] at hmem
      rcases hmem with rfl | rfl | rfl | rfl
      all_goals decide
    have hline : line s.rest = word.toList ++ line after := by rw [hrest, line_append hfree]
    have hdrop : (line s.rest).drop word.length = line after := by
      rw [hline]
      exact drop_left' String.length_toList
    have htrim : (trimStart (line after)).length ≤ (line after).length :=
      (dropWhile_suffix _).length_le
    dsimp only
    rw [behind_eq hline rfl, ok_bind, hdrop, minus_of_le htrim, ok_bind,
      consume_eq (show line s.rest <+: _ from takeWhile_prefix _) rfl, ok_bind]
    split
    · exact bind_of fun _ _ => rfl
    · exact bind_of fun _ _ => rfl
    · exact bind_of fun _ _ => rfl
    · simp only [pure, Except.pure]
      split <;> rfl

theorem each_eq (s : Lexer) : each env s = .of (env.each s) := by
  unfold each
  cases hhead : loopHead? s.rest with
  | none => rfl
  | some head =>
    have hlist := (loopHead?_cut hhead).1.length_le
    rw [Setting.each, hhead]
    dsimp only
    rw [minus_of_le hlist, ok_bind,
      consume_eq (show line s.rest <+: _ from takeWhile_prefix _) rfl, ok_bind]
    refine bind_of fun _ _ => ?_
    simp only [Lexer.advanceColumn, Nat.add_assoc, Nat.sub_add_cancel hlist]
    rfl

/-! ## Other files and named blocks -/

theorem path_eq (s : Lexer) : path s = .of (Setting.path s) := by
  unfold path
  split
  · rename_i cs hrest
    simp only [Setting.path, hrest]
    split
    · rfl
    · have hfront : ' ' :: line cs <+: s.rest := by
        rw [hrest]
        exact (prefix_cons_inj _).mpr ( takeWhile_prefix _)
      rw [scanEndOfLine_eq hfront, ok_bind]
      cases s.takeToLineEnd (' ' :: line cs) with
      | none => rfl
      | some found =>
        dsimp only
        split <;> rfl
  · simp only [Setting.path]
    rfl

theorem extendsPath_eq (hhooks : env.hooks = []) (s : Lexer) :
    extendsPath env s = .of (env.extendsPath s) := by
  rw [extendsPath]
  dsimp only
  cases hrest : afterWord? (if (afterWord? "extends" s.rest).isSome then "extends" else "extend")
      s.rest with
  | none =>
    rw [Setting.extendsPath, hrest]
    rfl
  | some rest =>
    have hcut := afterWord?_cut hrest
    dsimp only
    rw [behind_eq hcut rfl, ok_bind]
    split
    · rename_i hends
      rw [Setting.extendsPath, hrest]
      dsimp only
      rw [if_pos hends, consume_eq ⟨_, hcut.symm⟩ rfl, ok_bind, String.length_toList,
        call_eq hhooks, path_eq]
      refine bind_of fun out _ => ?_
      split <;> rfl
    · rfl

theorem namedBlock_eq {content : List Char → Option (List Char)}
    (hcontent : ∀ {cs rest}, content cs = some rest → rest <:+ cs) (mode : BlockMode) (s : Lexer) :
    namedBlock content mode s = .of (Setting.namedBlock content mode s) := by
  unfold namedBlock Setting.namedBlock
  cases hfound : content s.rest with
  | none => rfl
  | some after =>
    obtain ⟨front, hrest⟩ := hcontent hfound
    obtain ⟨more, hmore⟩ := beforeComment_prefix (line after)
    dsimp only
    rw [upTo_eq hmore.symm rfl, ok_bind]
    split
    · rfl
    · have hvalue : front ++ beforeComment (line after) <+: s.rest := by
        rw [← hrest, prefix_append_right_inj]
        exact ( beforeComment_prefix _).trans ( takeWhile_prefix _)
      obtain ⟨rest, hcut⟩ := hvalue
      have hwidth : s.rest.length - after.length + (beforeComment (line after)).length =
          (front ++ beforeComment (line after)).length := by
        rw [← hrest, length_append, Nat.add_sub_cancel, length_append]
      rw [minus_eq (d := size front) (by rw [← hrest, size_append]), ok_bind,
        upTo_eq hcut.symm (size_append ..).symm, ok_bind, consume_eq ⟨_, hcut⟩ rfl,
        ok_bind, hwidth]
      rfl

/-! ## Brackets -/

theorem bracket_slices {n : Nat} (hfront : front <+: s.rest) (hn : n = size front)
    (h : env.bracketed s front.length = .ok inside) :
    (∀ t : Lexer, t.rest = s.rest →
      consume t (n + 1 + size inside + 1) = .ok (t.consume (front.length + inside.length + 2))) ∧
    upTo s.rest (n + 1 + size inside + 1) =
      .ok (s.rest.take (front.length + inside.length + 2)) ∧
    slice s.rest (n + 1) (n + 1 + size inside) = .ok inside := by
  obtain ⟨front', opener, closer, after, hrest, hlength, hcloser⟩ := bracketed_cut h
  have hfront' : front' <+: s.rest := by
    rw [hrest]
    simp only [append_assoc, prefix_append]
  obtain rfl := (prefix_of_prefix_length_le hfront' hfront hlength.le).eq_of_length hlength
  have hopener := size_opener hcloser
  have hclose : size [closer] = 1 := by
    unfold closer? at hcloser
    split at hcloser
    all_goals first
      | cases hcloser; rfl
      | cases hcloser
  have hsize : n + 1 + size inside + 1 = size (front' ++ [opener] ++ inside ++ [closer]) := by
    rw [size_append, size_append, size_append, hopener, hclose, hn]
  have hwidth : (front' ++ [opener] ++ inside ++ [closer]).length =
      front'.length + inside.length + 2 := by
    simp only [length_append, length_singleton]
    omega
  have hopen : n + 1 = size (front' ++ [opener]) := by rw [size_append, hopener, hn]
  refine ⟨fun t ht => ?_, ?_, ?_⟩
  · rw [← hwidth]
    exact consume_eq ⟨after, hrest.symm.trans ht.symm⟩ hsize
  · rw [upTo_eq hrest hsize, ← hwidth, hrest, take_left]
  · rw [append_assoc _ [closer]] at hrest
    exact slice_eq hrest hopen (by rw [hopen])

theorem attributes_eq (s : Lexer) : attributes env s = .of (env.attributes s) := by
  unfold attributes
  split
  · rename_i cs hrest
    simp only [Setting.attributes, hrest]
    have hnil : [] <+: (s.push .startAttributes).rest := nil_prefix
    rw [bracketed_eq (n := 0) hnil rfl]
    refine bind_map fun body hbody => ?_
    obtain ⟨hconsume, -, hslice⟩ := bracket_slices (n := 0) hnil rfl hbody
    rw [Nat.zero_add] at hslice
    dsimp only
    rw [hslice, ok_bind, hconsume _ rfl, ok_bind, length_nil, Nat.zero_add]
    exact bind_of fun _ _ => rfl
  · simp only [Setting.attributes]
    rfl

theorem advanceColumn_add (s : Lexer) (n m : Nat) :
    (s.advanceColumn n).advanceColumn m = s.advanceColumn (m + n) := by
  rw [Lexer.advanceColumn, Lexer.advanceColumn, Lexer.advanceColumn, Nat.add_assoc, Nat.add_comm n]

theorem marked_front {mark : Char} {cs name : List Char} (hrest : s.rest = mark :: cs)
    (hname : name <+: cs) : [mark] ++ name <+: s.rest := by
  rw [hrest]
  exact (prefix_cons_inj _).mpr hname

theorem filter_eq (hfollows : Follows env depth nested) (inInclude : Bool) (s : Lexer) :
    filter env nested inInclude s = .of (env.filter inInclude s) := by
  unfold filter
  split
  · rename_i cs hrest
    simp only [Setting.filter, hrest]
    cases hname : name? cs with
    | none => rfl
    | some name =>
      have hscan := scan_eq (marked_front hrest (name?_cut hname).2.1)
      rw [singleton_append] at hscan
      dsimp only
      rw [hscan, ok_bind]
      dsimp only
      rw [advanceColumn_add, attributes_eq, call_eq hfollows.hooks]
      refine bind_of fun out _ => ?_
      split
      · rfl
      · rw [pipelessText_eq hfollows]
        exact bind_of fun _ _ => rfl
  · simp only [Setting.filter]
    rfl

theorem length_filter (hhooks : env.hooks = []) {s t : Lexer}
    (h : env.filter true s = .ok (true, t)) : t.rest.length < s.rest.length := by
  have hshort : Yields (env.filter true s)
      (fun out => out.1 = true → out.2.rest.length < s.rest.length) fun _ => True := by
    unfold Setting.filter
    split
    · rename_i cs hrest
      split
      · exact .ok (by rintro ⟨⟩)
      · rename_i name hname
        dsimp only
        rw [call_eq hhooks]
        refine .bind ((yields_attributes 0 _).mono (fun _ h => h) fun _ _ => trivial)
          fun _ hpast => .ok fun _ => ?_
        exact Nat.lt_of_le_of_lt hpast.rest.length_le
          (length_drop_lt (by simp [hrest]) (Nat.succ_pos name.length))
    · exact .ok (by rintro ⟨⟩)
  exact hshort.of_ok h rfl

theorem includeFile_eq (hfollows : Follows env depth nested) (s : Lexer) :
    includeFile env nested s = .of (env.includeFile s) := by
  rw [includeFile]
  cases hrest : afterWord? "include" s.rest with
  | none =>
    rw [Setting.includeFile, hrest]
    rfl
  | some rest =>
    have hcut : s.rest = "include".toList ++ rest := afterWord?_cut hrest
    dsimp only
    rw [behind_eq (n := 7) hcut rfl, ok_bind]
    split
    · rename_i hends
      have hshort : (((s.push .include).consume "include".toList.length).advanceColumn
          7).rest.length < rest.length + 1 := by
        show (s.rest.drop _).length < _
        rw [hcut, drop_left]
        exact Nat.lt_succ_self _
      rw [Setting.includeFile, hrest]
      dsimp only
      rw [if_pos hends, consume_eq (s := s.push .include) (n := 7) ⟨rest, hcut.symm⟩ rfl,
        ok_bind, repeatRule_eq hfollows.hooks (.filter true) (filter_eq hfollows true)
          (fun _ _ => length_filter hfollows.hooks) (n := rest.length + 1) hshort]
      refine bind_of fun next _ => ?_
      rw [call_eq hfollows.hooks, path_eq]
      refine bind_of fun out _ => ?_
      obtain ⟨_ | _, next⟩ := out
      · simp only [Bool.false_eq_true, if_false]
        cases next.rest.head? with
        | none => rfl
        | some c =>
          dsimp only [Option.all]
          split <;> rfl
      · rfl
    · rfl

/-! ## Mixins -/

theorem mixin_eq (s : Lexer) : mixin s = .of (Setting.mixin s) := by
  unfold mixin Setting.mixin
  cases hhead : mixinHead? s.rest with
  | none => rfl
  | some head =>
    obtain ⟨-, front, after, -, hrest, hwidth⟩ := mixinHead?_cut hhead
    have htake : s.rest.take head.width = front := by
      rw [hrest]
      exact take_left' hwidth
    dsimp only
    rw [htake, consume_eq ⟨after, hrest.symm⟩ rfl, ok_bind, hwidth]
    rfl

theorem callName_eq (s : Lexer) : callName env s = .of (env.callName s) := by
  unfold callName
  split
  · rename_i cs hrest
    simp only [Setting.callName, hrest]
    have hcut := takeWhile_append_dropWhile (p := isBlank) (l := cs)
    cases hname : name? (cs.dropWhile isBlank) with
    | some name =>
      obtain ⟨after, hafter⟩ := (name?_cut hname).2.1
      have hfront : '+' :: cs.takeWhile isBlank ++ name <+: s.rest := by
        rw [hrest, cons_append, prefix_cons_inj]
        exact ⟨after, by rw [append_assoc, hafter, hcut]⟩
      have hlength : ('+' :: cs.takeWhile isBlank ++ name).length =
          1 + (cs.takeWhile isBlank).length + name.length := by
        rw [length_append, length_cons, Nat.add_comm 1]
      dsimp only
      rw [consume_eq hfront rfl, ok_bind, hlength]
      rfl
    | none =>
      dsimp only
      split
      · rename_i rest hbracket
        have hfront : '+' :: cs.takeWhile isBlank ++ ['#'] <+: s.rest := by
          rw [hrest, cons_append, prefix_cons_inj]
          exact ⟨_, by rw [append_assoc, singleton_append, ← hbracket, hcut]⟩
        have hsize : 2 + size (cs.takeWhile isBlank) = size ('+' :: cs.takeWhile isBlank ++ ['#']) := by
          rw [size_append, size_cons]
          show _ = 1 + _ + 1
          omega
        have hskip : 2 + (cs.takeWhile isBlank).length =
            ('+' :: cs.takeWhile isBlank ++ ['#']).length := by
          rw [length_append, length_cons, length_singleton, Nat.add_comm 2]
        rw [bracketed_eq hfront hsize]
        simp only [hbracket, hskip]
        refine bind_map fun source hsource => ?_
        obtain ⟨-, hupTo, -⟩ := bracket_slices hfront hsize hsource
        dsimp only
        rw [← hrest, hupTo, ok_bind, consume_eq ( take_prefix _ _) rfl, ok_bind,
          Nat.add_assoc, hskip]
        refine bind_of fun _ _ => ?_
        rw [skipOver_eq]
        rfl
      · simp only [pure, Except.pure]
        rfl
  · simp only [Setting.callName]
    rfl

theorem callArguments_eq (s : Lexer) : callArguments env s = .of (env.callArguments s) := by
  have hdrop : s.rest.drop (s.rest.takeWhile (· == ' ')).length = s.rest.dropWhile (· == ' ') :=
    (congrArg (drop _) takeWhile_append_dropWhile.symm).trans drop_left
  unfold callArguments
  split
  · rename_i cs hrest
    have hfront : s.rest.takeWhile (· == ' ') <+: s.rest := takeWhile_prefix _
    have hopener : size (s.rest.takeWhile (· == ' ') ++ ['(']) =
        (s.rest.takeWhile (· == ' ')).length + 1 := by
      rw [size_append, size_run rfl]
      rfl
    simp only [Setting.callArguments, hdrop, hrest]
    rw [minus_eq hopener, ok_bind, bracketed_eq hfront (size_run rfl _).symm]
    refine bind_map fun source hsource => ?_
    obtain ⟨hconsume, -, -⟩ := bracket_slices hfront (size_run rfl _).symm hsource
    dsimp only
    split
    · rfl
    · have hcolumn (t : Lexer) (n : Nat) : 1 ≤ (t.advanceColumn (n + 1)).column :=
        Nat.le_trans (Nat.le_add_left 1 n) (Nat.le_add_left _ _)
      rw [hconsume _ rfl, ok_bind, minus_of_le (hcolumn _ _), ok_bind]
      refine bind_of fun _ _ => ?_
      rw [skipOver_eq]
      rfl
  · simp only [Setting.callArguments, hdrop]
    rfl

theorem mixinCall_eq (s : Lexer) : mixinCall env s = .of (env.mixinCall s) := by
  rw [mixinCall, Setting.mixinCall, callName_eq]
  refine bind_of fun found _ => ?_
  obtain _ | ⟨name, next⟩ := found
  · rfl
  · dsimp only
    rw [callArguments_eq]
    exact bind_of fun _ _ => rfl

/-! ## Tags -/

theorem interpolation_eq (s : Lexer) : interpolation env s = .of (env.interpolation s) := by
  unfold interpolation
  split
  · rename_i cs hrest
    have hfront : ['#'] <+: s.rest := ⟨_, hrest.symm⟩
    rw [bracketed_eq (n := 1) hfront rfl]
    simp only [Setting.interpolation, hrest]
    refine bind_map fun source hsource => ?_
    obtain ⟨hconsume, -, -⟩ := bracket_slices (n := 1) hfront rfl hsource
    dsimp only
    rw [hconsume _ rfl, ok_bind, length_singleton, Nat.add_comm 1]
    refine bind_of fun _ _ => ?_
    rw [skipOver_eq]
    rfl
  · simp only [Setting.interpolation]
    rfl

theorem tag_eq (s : Lexer) : tag s = .of (Setting.tag s) := by
  unfold tag Setting.tag
  cases hname : tagName? s.rest with
  | none => rfl
  | some name =>
    dsimp only
    rw [consume_eq (tagName?_cut hname).2.1 rfl]
    rfl

theorem marked_eq (kind : String → TokenKind) {mark : Char} {cs name : List Char}
    (hrest : s.rest = mark :: cs) (hname : name <+: cs) : marked kind mark name s =
      .ok (true, ((s.push (kind (String.ofList name))).consume (name.length + 1)).advanceColumn
        (name.length + 1)) := by
  have hscan := scan_eq (marked_front hrest hname)
  rw [singleton_append] at hscan
  rw [marked, hscan, ok_bind]
  dsimp only
  rw [advanceColumn_add]
  rfl

theorem idName_eq (s : Lexer) : idName env s = .of (env.idName s) := by
  unfold idName
  split
  · rename_i cs hrest
    simp only [Setting.idName, hrest]
    cases hname : name? cs with
    | some name => exact marked_eq _ hrest (name?_cut hname).2.1
    | none =>
      dsimp only
      rw [behind_eq (n := 1) (singleton_append (l := cs)).symm rfl]
      rfl
  · simp only [Setting.idName]
    rfl

theorem className_eq (s : Lexer) : className env s = .of (env.className s) := by
  unfold className
  split
  · rename_i cs hrest
    simp only [Setting.className, hrest]
    cases hname : className? cs with
    | some name => exact marked_eq _ hrest (className?_cut hname).2.1
    | none => rfl
  · simp only [Setting.className]
    rfl

theorem spreadAttributes_eq (s : Lexer) :
    spreadAttributes env s = .of (env.spreadAttributes s) := by
  unfold spreadAttributes Setting.spreadAttributes
  split
  · rename_i hword
    obtain ⟨after, hrest⟩ := atKeyword_cut hword
    rw [consume_eq (n := 11) ⟨after, hrest.symm⟩ rfl, ok_bind]
    dsimp only
    rw [bracketed_eq (n := 0) ( nil_prefix : [] <+: _) rfl]
    refine bind_map fun source hsource => ?_
    obtain ⟨-, hupTo, -⟩ := bracket_slices (n := 0) ( nil_prefix : [] <+: _) rfl hsource
    dsimp only
    rw [hupTo, ok_bind, consume_eq ( take_prefix _ _) rfl, ok_bind, skipOver_eq,
      length_nil, Nat.zero_add]
    rfl
  · rfl

theorem dot_eq (hfollows : Follows env depth nested) (s : Lexer) : dot env nested s = .of (env.dot s) := by
  rw [dot, Setting.dot, loneWord_eq, Checked.of, Except.mapError, ok_bind]
  obtain ⟨_ | _, next⟩ := Setting.loneWord "." .dot s
  · rfl
  · show (pipelessText env nested next >>= _) = _
    rw [pipelessText_eq hfollows]
    exact bind_of fun _ _ => rfl

theorem punctuation_eq (kind : TokenKind) {whole : List Char} (h : whole <+: s.rest) :
    punctuation kind whole s = .ok (true, ((s.push kind).consume whole.length).advanceColumn
      whole.length) := by
  have hscan := scan_eq (show whole ++ [] <+: s.rest by rwa [append_nil])
  rw [append_nil] at hscan
  rw [punctuation, hscan]
  rfl

theorem slash_eq (s : Lexer) : slash s = .of (Setting.slash s) := by
  unfold slash
  split
  · rename_i cs hrest
    rw [punctuation_eq .slash ⟨cs, hrest.symm⟩]
    simp only [Setting.slash, hrest, Lexer.consume, Lexer.push, Lexer.pushAt]
    rfl
  · simp only [Setting.slash]
    rfl

theorem colon_eq (s : Lexer) : colon s = .of (Setting.colon s) := by
  unfold colon
  split
  · rename_i cs hrest
    simp only [Setting.colon, hrest]
    cases hspaces : cs.takeWhile (· == ' ') with
    | nil => rfl
    | cons c spaces =>
      have hfront : ':' :: c :: spaces <+: s.rest := by
        rw [hrest, ← hspaces, prefix_cons_inj]
        exact takeWhile_prefix _
      exact punctuation_eq .colon hfront
  · simp only [Setting.colon]
    rfl

/-! ## Code and comments -/

theorem blockCode_eq (hfollows : Follows env depth nested) (s : Lexer) :
    blockCode env nested s = .of (env.blockCode s) := by
  rw [blockCode, Setting.blockCode, loneWord_eq, Checked.of, Except.mapError, ok_bind]
  obtain ⟨_ | _, next⟩ := Setting.loneWord "-" .blockCode s
  · rfl
  · show (pipelessText env nested { next with interpolating := false } >>= _) = _
    rw [pipelessText_eq hfollows]
    exact bind_of fun _ _ => rfl

theorem codeSource_eq (source : List Char) (s : Lexer) : codeSource env source s =
    .of ((env.codeSource source s).map fun inside => (inside, size source - size inside)) := by
  unfold codeSource Setting.codeSource
  split
  · rw [scanUntil_eq, ok_bind]
    cases hscan : Nesting.scanUntilChar ']' source with
    | ok found =>
      obtain ⟨inside, after⟩ := found
      obtain ⟨rest, rfl, hcut⟩ := Nesting.scanUntilChar_cut hscan
      dsimp only [placed]
      rw [Nat.zero_add, minus_of_le (by rw [hcut, size_append]; exact Nat.le_add_right _ _)]
      rfl
    | error fault =>
      obtain ⟨more, hmore⟩ := Nesting.before_prefix hscan
      have hindex {before : List Char} (hcut : source = before ++ more) :
          min (0 + size before) (size source) = size before := by
        rw [hcut, size_append]
        omega
      cases fault with
      | mismatched found before | unfinished before =>
        have hcut : source = before ++ more := hmore.symm
        dsimp only [placed]
        rw [upTo_eq hcut (hindex hcut)]
        rfl
  · simp [Checked.of, Except.map, Except.mapError, pure, Except.pure]

theorem code_eq (s : Lexer) : code env s = .of (env.code s) := by
  unfold code Setting.code
  cases hmarks : codeMarks? s.rest with
  | none => rfl
  | some found =>
    obtain ⟨marks, escape, buffer⟩ := found
    obtain ⟨-, hmarks, -⟩ := codeMarks?_cut hmarks
    dsimp only
    cases hline : codeLine? (s.rest.drop marks) with
    | none => rfl
    | some found =>
      obtain ⟨gap, line⟩ := found
      obtain ⟨-, blanks, after, -, hrest, rfl⟩ := codeLine?_cut hline
      have hlead : (s.rest.take marks ++ blanks).length = marks + blanks.length := by
        rw [length_append, length_take_of_le hmarks]
      have hcut : s.rest = s.rest.take marks ++ blanks ++ (line ++ after) := by
        conv_lhs => rw [← take_append_drop marks s.rest, hrest]
        simp only [append_assoc]
      have hwhole : s.rest.take (marks + blanks.length + line.length) =
          s.rest.take marks ++ blanks ++ line := by
        conv_lhs => rw [hcut, ← append_assoc]
        exact take_left' (by rw [length_append, hlead])
      dsimp only
      rw [hwhole, minus_eq (d := marks + blanks.length) (by rw [length_append, hlead]),
        ok_bind, codeSource_eq]
      refine bind_map fun source hsource => ?_
      obtain ⟨more, hmore⟩ := yields_codeSource.of_ok hsource
      have hfront : s.rest.take marks ++ blanks ++ source <+: s.rest :=
        ⟨more ++ after, by rw [append_assoc _ source, ← append_assoc source, hmore, ← hcut]⟩
      dsimp only
      rw [minus_eq (d := size (s.rest.take marks ++ blanks ++ source))
          (by rw [← hmore]; simp only [size_append]; omega), ok_bind,
        consume_eq (s := s.advanceColumn _) hfront rfl, ok_bind, length_append, hlead]
      split
      · exact bind_of fun _ _ => rfl
      · rfl

theorem comment_eq (hfollows : Follows env depth nested) (s : Lexer) : comment env nested s = .of (env.comment s) := by
  unfold comment
  split
  · rename_i cs hrest
    have hline : line s.rest <+: s.rest := takeWhile_prefix _
    dsimp only
    rw [consume_eq hline rfl, ok_bind, pipelessText_eq hfollows]
    simp only [Setting.comment, hrest]
    exact bind_of fun _ _ => rfl
  · simp only [Setting.comment]
    rfl

/-! ## Indentation -/

/-- **Indentations are closed** one by one, each inside of another one or of the outermost. -/
theorem closeIndents_eq (width : Nat) {indents : List Nat} {s : Lexer} (h : s.indents = indents) :
    closeIndents env width s = .of (env.closeIndents width indents s) := by
  induction indents generalizing s with
  | nil =>
    rw [closeIndents, if_pos (by rw [Lexer.indent, h]; exact Nat.zero_le _)]
    rfl
  | cons current outer ih =>
    have hindent : s.indent = current := by rw [Lexer.indent, h]; rfl
    have hstack : entry (s.indents ++ [0]) 1 = .ok (outer.headD 0) := by
      rw [h]
      cases outer <;> rfl
    rw [closeIndents, Setting.closeIndents, hindent]
    split
    · rfl
    · rw [hstack, ok_bind]
      dsimp only
      split
      · rfl
      · have hless : s.indents.tail.length < s.indents.length := by
          rw [h]
          exact Nat.lt_succ_self _
        split
        · rw [h]
          exact ih rfl
        · rename_i hstuck
          exact absurd hless hstuck

theorem size_indentation {s t : Lexer} {width : Nat} (h : s.indentation? = (some width, t)) :
    size (s.rest.take (width + 1)) = width + 1 := by
  have hrun (cs : List Char) (c : Char) (hc : c.utf8Size = 1) :
      size (('\n' :: cs).take ((cs.takeWhile (· == c)).length + 1)) =
        (cs.takeWhile (· == c)).length + 1 := by
    rw [take_succ_cons, ← prefix_iff_eq_take.mp ( takeWhile_prefix _), size_cons, size_run hc,
      Nat.add_comm]
    rfl
  unfold Lexer.indentation? at h
  split at h
  · rename_i cs hrest
    rw [hrest]
    dsimp only at h
    split at h
    · cases h
      exact hrun cs '\t' rfl
    · cases h
      exact hrun cs ' ' rfl
    · split at h
      · cases h
        exact hrun cs '\t' rfl
      · split at h
        · cases h
          exact hrun cs ' ' rfl
        · cases h
          rfl
  · cases h

theorem indent_eq (s : Lexer) : indent env s = .of (env.indent s) := by
  unfold indent Setting.indent
  have hsize := @size_indentation s
  have hbreak := @indentation?_rest s
  have hsame := rest_indentation? s
  generalize s.indentation? = found at hsize hbreak hsame ⊢
  obtain ⟨_ | width, t⟩ := found
  · rfl
  · obtain ⟨cs, hrest, hwidth, -⟩ := hbreak rfl
    have hlength : (t.rest.take (width + 1)).length = width + 1 := by
      rw [hsame, hrest]
      exact length_take_of_le (Nat.succ_le_succ hwidth)
    rw [← hsame] at hsize
    dsimp only
    rw [consume_eq (s := t.advanceLine 1) ( take_prefix (width + 1) t.rest) (hsize rfl).symm,
      ok_bind, hlength]
    generalize (t.advanceLine 1).consume (width + 1) = u
    split
    · rename_i hu
      simp only [hu, refuse]
      rfl
    · rename_i hu
      simp only [hu, refuse]
      rfl
    · rename_i hu
      simp only [hu, pure, Except.pure]
      rfl
    · simp only [pure, Except.pure]
      split
      · rw [closeIndents_eq width rfl]
        exact bind_of fun _ _ => rfl
      · split <;> rfl

/-! ## Constructs and runs -/

/-- **Each rule** does what the rule of the setting does that it stands for. -/
theorem rules_eq (hfollows : Follows env depth nested) :
    Forall₂ (fun checked own => ∀ s, checked s = .of (own.2 s)) (rules env nested) env.rules := by
  simp only [rules, Setting.rules, forall₂_cons, forall₂_nil_left_iff, and_true]
  exact ⟨blank_eq, fun _ => trivial, endInterpolation_eq, loneWord_eq _ _, doctype_eq, interpolation_eq,
    case_eq, when_eq, defaultCase_eq, extendsPath_eq hfollows.hooks,
    namedBlock_eq (fun h => (blockCommand?_cut h).1) _,
    namedBlock_eq (fun h => (blockCommand?_cut h).1) _,
    namedBlock_eq (fun h => (blockLine?_cut h).1) _, loneWord_eq _ _,
    includeFile_eq hfollows, mixin_eq, mixinCall_eq, conditional_eq, each_eq,
    whileLoop_eq, tag_eq, filter_eq hfollows false,
    blockCode_eq hfollows, code_eq, idName_eq, dot_eq hfollows,
    className_eq, attributes_eq, spreadAttributes_eq, indent_eq, text_eq hfollows,
    textHtml_eq hfollows, comment_eq hfollows, slash_eq, colon_eq⟩

theorem tryRules_eq (hhooks : env.hooks = []) {checked : List (Lexer → Step)}
    {own : List (Rule × (Lexer → PugTemplate.Step))}
    (h : Forall₂ (fun checked own => ∀ s, checked s = .of (own.2 s)) checked own) (s : Lexer) :
    tryRules env checked s = .of (env.tryRules own s) := by
  induction h generalizing s with
  | nil => rfl
  | cons hrule _ ih =>
    rw [tryRules, Setting.tryRules, call_eq hhooks, hrule]
    refine bind_of fun out _ => ?_
    obtain ⟨_ | _, next⟩ := out
    · exact ih next
    · rfl

/-- **Every construct takes something from the text**, unless it is the last one. -/
theorem advance_shortens (hhooks : env.hooks = []) (hdelegates : env.Delegates depth) {b : Bool}
    {s t : Lexer} (hfits : env.Fits s) (h : env.advance s = .ok (b, t)) :
    t.rest <:+ s.rest ∧ (t.ended ∨ t.rest.length < s.rest.length) := by
  obtain ⟨hread, hsteps⟩ := (yields_advance hhooks hdelegates s hfits).of_ok h
  exact ⟨hsteps.rest, hsteps.shorter hread⟩

/-- **A run** takes as many constructs as the text has characters, and one more, at most. -/
theorem run_eq (hfollows : Follows env depth nested) {n : Nat} {s : Lexer} (hfits : env.Fits s)
    (hn : s.ended ∨ s.rest.length < n) : run env nested s = .of (env.runSteps n s) := by
  induction n generalizing s with
  | zero =>
    have hended : s.ended := hn.resolve_right (Nat.not_lt_zero _)
    rw [run, runSteps, if_pos hended, if_pos hended]
    rfl
  | succ n ih =>
    rw [run, runSteps]
    split
    · rfl
    · rename_i hgoing
      rw [call_eq hfollows.hooks, tryRules_eq hfollows.hooks (rules_eq hfollows)]
      refine bind_of fun out hout => ?_
      obtain ⟨hrest, hshort⟩ := advance_shortens hfollows.hooks hfollows.delegates hfits hout
      have hlength := hn.resolve_left hgoing
      dsimp only
      rw [dif_pos hshort]
      exact ih (hfits.next hrest) (hshort.imp_right fun h => by omega)

end ByteLexer

/-! ## Levels -/

namespace Setting

/-- The setting of the lexers that read tag interpolations of a level. The template itself has level
zero. -/
def atLevel (env : Setting) (level : Nat) : Setting :=
  { env.nesting (maxInterpolationDepth - level) with interpolated := decide (0 < level) }

variable {env : Setting}

theorem hooks_atLevel (hhooks : env.hooks = []) (level : Nat) : (env.atLevel level).hooks = [] :=
  (hooks_nesting env _).trans hhooks

/-- **Tag interpolations are read one level deeper**, and not below the last level. -/
theorem nested_atLevel (level : Nat) : (env.atLevel level).nested =
    if level < maxInterpolationDepth then some (env.atLevel (level + 1)).run else none := by
  split
  · have hdepth : maxInterpolationDepth - level = maxInterpolationDepth - (level + 1) + 1 := by
      omega
    unfold atLevel
    rw [hdepth]
    rfl
  · have hdepth : maxInterpolationDepth - level = 0 := by omega
    unfold atLevel
    rw [hdepth]
    rfl

end Setting

/-- The lexers inside of one another do what those of the setting do, down to the last level. -/
theorem ByteLexer.follows_nesting {env : Setting} (hhooks : env.hooks = []) (n : Nat)
    (interpolated : Bool) : Follows { env.nesting n with interpolated } n (nestedAt env n) := by
  induction n generalizing interpolated with
  | zero => exact ⟨hhooks, fun _ hread => absurd hread nofun, rfl⟩
  | succ n ih =>
    refine ⟨hhooks, fun read hread => ?_, _, rfl, fun s hline => ?_⟩
    · obtain ⟨below, hbelow, h⟩ := delegates_nesting hhooks (n + 1) read hread
      exact ⟨below, hbelow, fun s hs => (h s hs).mono (fun _ h => h) fun _ h => h.of_eq rfl rfl⟩
    · exact run_eq (ih true) (fun _ => hline) (.inr (Nat.lt_succ_self _))

/-- **The lexer ends, and stays inside of its texts**: `ByteLexer` reads every template as the lexer
does, so it ends with the tokens or with a diagnostic. The lexers at every level of tag interpolations
do so, each construct that they read makes their text shorter or is the last one, and there is a last
level. -/
theorem tokenize_ends (file : Option String) (validator : Validator) (source : String) :
    let env : Setting := { file, validator }
    ByteLexer.tokenize env source = .of (tokenize env source) ∧
    ∀ level, (∀ s, (env.atLevel level).Fits s →
      ByteLexer.run (env.atLevel level) (ByteLexer.nestedAt env (maxInterpolationDepth - level)) s =
        .of ((env.atLevel level).run s) ∧
      ∀ b t, (env.atLevel level).advance s = .ok (b, t) →
        t.rest <:+ s.rest ∧ (t.ended ∨ t.rest.length < s.rest.length)) ∧
      (env.atLevel level).nested =
        if level < maxInterpolationDepth then some (env.atLevel (level + 1)).run else none := by
  intro env
  have hfollows (level : Nat) : ByteLexer.Follows (env.atLevel level) (maxInterpolationDepth - level)
      (ByteLexer.nestedAt env (maxInterpolationDepth - level)) :=
    ByteLexer.follows_nesting rfl _ _
  refine ⟨?_, fun level => ⟨fun s hfits => ⟨?_, fun b t hstep => ?_⟩, nested_atLevel level⟩⟩
  · have hrun : ByteLexer.run (env.atLevel 0) (ByteLexer.nestedAt env maxInterpolationDepth)
        { rest := normalize source } = .of ((env.atLevel 0).run { rest := normalize source }) :=
      ByteLexer.run_eq (hfollows 0) nofun (.inr (Nat.lt_succ_self _))
    unfold ByteLexer.tokenize tokenize
    show (ByteLexer.run (env.atLevel 0) _ _ >>= _) = Checked.of ((env.atLevel 0).run _ >>= _)
    rw [hrun]
    exact Checked.bind_of fun _ _ => rfl
  · exact ByteLexer.run_eq (hfollows level) hfits (.inr (Nat.lt_succ_self _))
  · exact ByteLexer.advance_shortens (hfollows level).hooks (hfollows level).delegates hfits hstep

end PugTemplate
