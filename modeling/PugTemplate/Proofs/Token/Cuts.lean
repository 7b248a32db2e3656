import Mathlib.Data.List.Infix
import Mathlib.Data.List.TakeWhile
import PugTemplate.Proofs.Token.Patterns
import PugTemplate.Token.Lexer
/-!
# Where texts are cut

The lexer cuts the text that is left into parts: a word and what follows it, the inside of a bracket
and what follows that, plain text and a marker. Put together again, the parts are the text, so that
no part goes beyond it.
-/

namespace PugTemplate

open List Pattern Option Text

/-! ## Scans -/

namespace Nesting

variable {c : Char} {s : State} {after source cs : List Char} {stop : List Char → Bool}
  {options : UntilOptions} {fault : Fault}

theorem State.taken_push {t : State} (h : s.push c = some t) : t.taken = c :: s.taken := by
  obtain ⟨next, -, rfl⟩ := map_eq_some_iff.mp h
  rfl

theorem scanUntilFrom_cut (h : scanUntilFrom stop options s cs = .ok (source, after)) :
    s.taken.reverse ++ cs = source ++ after ∧ stop after := by
  induction cs generalizing s with
  | nil => cases h
  | cons c cs ih =>
    unfold scanUntilFrom at h
    split at h
    · rename_i hs
      cases h
      exact ⟨rfl, (Bool.and_eq_true_iff.mp hs).2⟩
    · split at h
      · rename_i t ht
        have hp := ih h
        rw [State.taken_push ht, reverse_cons, append_assoc] at hp
        exact hp
      · cases h

theorem before_prefix_scanUntilFrom (h : scanUntilFrom stop options s cs = .error fault) :
    fault.before <+: s.taken.reverse ++ cs := by
  induction cs generalizing s with
  | nil =>
    cases h
    exact prefix_append _ _
  | cons c cs ih =>
    unfold scanUntilFrom at h
    split at h
    · cases h
    · split at h
      · rename_i t ht
        have hb := ih h
        rw [State.taken_push ht, reverse_cons, append_assoc] at hb
        exact hb
      · cases h
        exact prefix_append _ _

theorem scanUntilChar_cut (h : scanUntilChar c cs = .ok (source, after)) :
    ∃ rest, after = c :: rest ∧ cs = source ++ c :: rest := by
  obtain ⟨hp, hs⟩ := scanUntilFrom_cut h
  cases after with
  | nil => cases hs
  | cons d rest =>
    obtain rfl : d = c := some.inj (beq_iff_eq.mp hs)
    exact ⟨rest, rfl, hp⟩

theorem before_prefix (h : scanUntilChar c cs = .error fault) : fault.before <+: cs :=
  before_prefix_scanUntilFrom h

end Nesting

/-! ## Markers -/

def Marker.text : Marker → List Char
  | .tag => ['#', '[']
  | .literalTag => ['\\', '#', '[']
  | .close => [']']
  | .code escape => [if escape then '#' else '!', '{']
  | .literalCode sigil => ['\\', sigil, '{']

variable {after cs : List Char} {interpolating interpolated : Bool} {m : Marker}

theorem markerAt_cut (h : markerAt interpolating interpolated cs = some (m, after)) :
    cs = m.text ++ after ∧ (m = .close → interpolated) := by
  unfold markerAt at h
  split at h
  all_goals first
    | (split at h
       · cases h
         first
         | exact ⟨rfl, fun _ => ‹_›⟩
         | exact ⟨rfl, by rintro ⟨⟩⟩
       · cases h)
    | cases h

/-- **A marker** cuts a text into what stands before it and what stands behind it. An interpolation
ends only inside of one. -/
theorem nextMarker_cut {before : List Char}
    (h : nextMarker interpolating interpolated cs = (before, some (m, after))) :
    cs = before ++ m.text ++ after ∧ (m = .close → interpolated) := by
  induction cs generalizing before with
  | nil => cases h
  | cons c cs ih =>
    unfold nextMarker at h
    split at h
    · rename_i found hf
      obtain ⟨rfl, hf'⟩ := Prod.mk.inj h
      rw [hf'] at hf
      exact markerAt_cut hf
    · obtain ⟨rfl, hf⟩ := Prod.mk.inj h
      obtain ⟨hcu, hc⟩ := ih (Prod.ext rfl hf)
      exact ⟨congrArg (c :: ·) hcu, hc⟩

theorem Marker.text_ne_nil (m : Marker) : m.text ≠ [] := by
  cases m <;> exact cons_ne_nil _ _

/-! ## Patterns -/

namespace Pattern

variable {rest cs name : List Char} {word : String}

theorem afterWord?_cut (h : afterWord? word cs = some rest) : cs = word.toList ++ rest :=
  (isPrefixOf?_eq_some_iff_append_eq.mp h).symm

theorem atKeyword_cut (h : atKeyword word cs) : ∃ after, cs = word.toList ++ after := by
  unfold atKeyword at h
  split at h
  · rename_i after ha
    exact ⟨after, afterWord?_cut ha⟩
  · cases h

theorem line_cut (cs : List Char) : ∃ after, cs = line cs ++ after :=
  ⟨_, (takeWhile_append_dropWhile ..).symm⟩

theorem not_mem_takeWhile {p : Char → Bool} (hp : p '\n' = false) (cs : List Char) :
    '\n' ∉ cs.takeWhile p := by
  intro hm
  have hb := mem_takeWhile_imp hm
  rw [hp] at hb
  cases hb

theorem dropLast_spaces (hn : cs.takeWhile (· == ' ') ≠ []) :
    (cs.takeWhile (· == ' ')).dropLast ++ [' '] = cs.takeWhile (· == ' ') := by
  have hs := mem_takeWhile_imp (getLast_mem hn)
  have hl := dropLast_append_getLast hn
  rwa [beq_iff_eq.mp hs] at hl

theorem spacedValue?_cut {isPart : Char → Bool} {spaces value : List Char}
    (h : spacedValue? isPart cs = some (spaces, value)) :
    value ≠ [] ∧ (isPart '\n' = false → '\n' ∉ spaces ++ value) ∧
      ∃ after, cs = spaces ++ value ++ after := by
  have hc := (takeWhile_append_dropWhile (p := (· == ' ')) (l := cs)).symm
  have hs : '\n' ∉ cs.takeWhile (· == ' ') := not_mem_takeWhile rfl cs
  unfold spacedValue? at h
  dsimp only at h
  split at h
  · rename_i hn
    cases h
    refine ⟨by simpa using (Bool.and_eq_true_iff.mp hn).2, fun hp => ?_,
      (cs.dropWhile (· == ' ')).dropWhile isPart, ?_⟩
    · rw [mem_append]
      exact not_or.mpr ⟨hs, not_mem_takeWhile hp _⟩
    · rw [append_assoc, takeWhile_append_dropWhile]
      exact hc
  · split at h
    · cases h
      -- Of the spaces, the last one is the value.
      have hn : cs.takeWhile (· == ' ') ≠ [] := ne_nil_of_length_pos (by omega)
      rw [dropLast_spaces hn]
      exact ⟨cons_ne_nil _ _, fun _ => hs, cs.dropWhile (· == ' '), hc⟩
    · cases h

theorem name?_cut (h : name? cs = some name) : name ≠ [] ∧ name <+: cs ∧ '\n' ∉ name := by
  simp only [name?, ite_none_left_eq_some, some.injEq] at h
  obtain ⟨hn, rfl⟩ := h
  exact ⟨by simpa using hn, takeWhile_prefix _, not_mem_takeWhile rfl cs⟩

theorem tagName?_cut (h : tagName? cs = some name) : name ≠ [] ∧ name <+: cs ∧ '\n' ∉ name := by
  unfold tagName? at h
  split at h
  · cases h
  · rename_i c cs
    split at h
    · rename_i hc
      cases h
      have hr : ((cs.takeWhile isTagPart).reverse.dropWhile
          fun c => c == '-' || c == ':').reverse <+: cs.takeWhile isTagPart := by
        rw [← reverse_suffix, reverse_reverse]
        exact dropWhile_suffix _
      refine ⟨cons_ne_nil _ _, (prefix_cons_inj c).mpr ?_, ?_⟩
      · exact hr.trans ( takeWhile_prefix _)
      · refine not_mem_cons_of_ne_of_not_mem (by rintro rfl; cases hc) fun hb => ?_
        exact not_mem_takeWhile rfl cs (hr.subset hb)
    · cases h

theorem className?_cut (h : className? cs = some name) : name ≠ [] ∧ name <+: cs ∧ '\n' ∉ name := by
  obtain ⟨dashes, hd, c, tail, hc, rfl, rfl⟩ := of_className?_eq h
  refine ⟨by simp, ?_, ?_⟩
  · rw [prefix_append_right_inj, prefix_cons_inj]
    exact takeWhile_prefix _
  · have hn : ∀ front ∈ classDashes, '\n' ∉ front := by decide
    rw [mem_append]
    refine not_or.mpr ⟨hn dashes hd, ?_⟩
    exact not_mem_cons_of_ne_of_not_mem (by rintro rfl; cases hc) (not_mem_takeWhile rfl _)

theorem line_append {front : List Char} (hf : '\n' ∉ front) :
    line (front ++ cs) = front ++ line cs :=
  takeWhile_append_of_pos fun _ hc => bne_iff_ne.mpr fun hb => hf (hb ▸ hc)

/-- What is left of a text starts on its first line. -/
def SameLine (rest cs : List Char) : Prop := ∃ front, '\n' ∉ front ∧ cs = front ++ rest

namespace SameLine

variable {cs rest more : List Char}

theorem trans (h : SameLine more rest) (h' : SameLine rest cs) : SameLine more cs := by
  obtain ⟨front, hf, rfl⟩ := h
  obtain ⟨front', hf', rfl⟩ := h'
  refine ⟨front' ++ front, ?_, (append_assoc ..).symm⟩
  rw [mem_append]
  exact not_or.mpr ⟨hf', hf⟩

theorem cons {c : Char} (hc : '\n' ≠ c) (cs : List Char) : SameLine cs (c :: cs) :=
  ⟨[c], mt mem_singleton.mp hc, rfl⟩

theorem dropWhile {p : Char → Bool} (hp : p '\n' = false) (cs : List Char) :
    SameLine (cs.dropWhile p) cs :=
  ⟨cs.takeWhile p, not_mem_takeWhile hp cs, takeWhile_append_dropWhile.symm⟩

theorem refl (cs : List Char) : SameLine cs cs := ⟨[], not_mem_nil, rfl⟩

theorem drop {front : List Char} (h : front <+: cs) (hb : '\n' ∉ front) :
    SameLine (cs.drop front.length) cs := by
  obtain ⟨after, rfl⟩ := h
  exact ⟨front, hb, by rw [drop_left]⟩

theorem of_take {n : Nat} (h : '\n' ∉ cs.take n) : SameLine (cs.drop n) cs :=
  ⟨cs.take n, h, (take_append_drop n cs).symm⟩

theorem suffix (h : SameLine rest cs) : rest <:+ cs := by
  obtain ⟨front, -, rfl⟩ := h
  exact suffix_append front rest

theorem line (h : SameLine rest cs) : line rest <:+ line cs := by
  obtain ⟨front, hf, rfl⟩ := h
  exact ⟨front, (line_append hf).symm⟩

end SameLine

theorem afterSpaces?_sameLine (h : afterSpaces? cs = some rest) : SameLine rest cs := by
  unfold afterSpaces? at h
  split at h
  · cases h
    exact (SameLine.dropWhile rfl _).trans (.cons (by decide) _)
  · cases h

theorem endOfLine?_sameLine (h : endOfLine? cs = some rest) : SameLine rest cs := by
  unfold endOfLine? at h
  split at h
  · cases h
    exact .refl _
  · split at h
    · rename_i hg
      cases h
      exact hg ▸ SameLine.dropWhile rfl _
    · rename_i hg
      cases h
      exact hg ▸ SameLine.dropWhile rfl _
    · cases h

theorem afterWord?_suffix (h : afterWord? word cs = some rest) : rest <:+ cs :=
  ⟨_, (afterWord?_cut h).symm⟩

theorem blockLine?_cut (h : blockLine? word cs = some rest) :
    rest <:+ cs ∧ ('\n' ∉ word.toList → SameLine rest cs) := by
  obtain ⟨after, hw, hs⟩ := bind_eq_some_iff.mp h
  have hsa := afterSpaces?_sameLine hs
  exact ⟨hsa.suffix.trans (afterWord?_suffix hw), fun hb => hsa.trans ⟨_, hb, afterWord?_cut hw⟩⟩

theorem blockCommand?_cut (h : blockCommand? word cs = some rest) :
    rest <:+ cs ∧ ('\n' ∉ word.toList → SameLine rest cs) := by
  unfold blockCommand? at h
  split at h
  · rename_i inner hb
    cases hw : blockLine? word inner with
    | some rest' =>
      rw [hw] at h
      obtain rfl : rest' = rest := some.inj h
      have hb := blockLine?_cut hb
      have hw := blockLine?_cut hw
      exact ⟨hw.1.trans hb.1, fun hbr => (hw.2 hbr).trans (hb.2 (by decide))⟩
    | none =>
      rw [hw] at h
      exact blockLine?_cut h
  · exact blockLine?_cut h

theorem beforeComment_prefix (cs : List Char) : beforeComment cs <+: cs := by
  fun_induction beforeComment cs with
  | case1 | case3 => exact nil_prefix
  | case2 c cs _ ih => exact (prefix_cons_inj c).mpr ih

theorem variableName?_sameLine (h : variableName? cs = some (name, rest)) : SameLine rest cs := by
  unfold variableName? at h
  split at h
  · cases h
  · split at h
    · rename_i hs
      cases h
      refine (SameLine.dropWhile rfl _).trans (.cons ?_ _)
      rintro rfl
      cases hs
    · cases h

theorem secondName?_sameLine (h : secondName? cs = some (name, rest)) : SameLine rest cs := by
  unfold secondName? at h
  split at h
  · rename_i after hc
    have ha : SameLine (',' :: after) cs := hc ▸ SameLine.dropWhile rfl cs
    have hn : SameLine rest after := (variableName?_sameLine h).trans (.dropWhile rfl after)
    exact (hn.trans (.cons (by decide) after)).trans ha
  · cases h

theorem variableNames?_sameLine {item : List Char} {key : Option (List Char)}
    (h : variableNames? cs = some (item, key, rest)) : SameLine rest cs := by
  obtain ⟨⟨name, after⟩, hn, h⟩ := bind_eq_some_iff.mp h
  have ha := variableName?_sameLine hn
  dsimp only at h
  split at h
  · rename_i hs
    obtain ⟨-, -, rfl⟩ := h
    exact (secondName?_sameLine hs).trans ha
  · obtain ⟨-, -, rfl⟩ := h
    exact ha

/-- The list of a loop is the end of the line: what stands behind the word `in`, or the last space
there. -/
theorem eachHead?_cut {head : EachHead} (h : eachHead? cs = some head) : head.list <:+ line cs := by
  obtain ⟨after₁, h₁, h⟩ := bind_eq_some_iff.mp h
  obtain ⟨⟨item, key, after₂⟩, h₂, h⟩ := bind_eq_some_iff.mp h
  obtain ⟨after₃, h₃, h⟩ := bind_eq_some_iff.mp h
  obtain ⟨after, h₄, h⟩ := bind_eq_some_iff.mp h
  have hw : SameLine after after₃ := ⟨"in".toList, by decide, afterWord?_cut h₄⟩
  have ha : SameLine after cs :=
    ((hw.trans (afterSpaces?_sameLine h₃)).trans (variableNames?_sameLine h₂)).trans
      (afterSpaces?_sameLine h₁)
  refine IsSuffix.trans ?_ ha.line
  dsimp only at h
  split at h
  · cases h
    exact (SameLine.dropWhile rfl after).line
  · rename_i hl
    split at h
    · rename_i hs
      cases h
      -- Nothing but spaces is left on the line.
      have hn : after.takeWhile (· == ' ') ≠ [] := by simpa using hs
      have hem : line (after.dropWhile (· == ' ')) = [] := by simpa using hl
      have hli : line after = after.takeWhile (· == ' ') := by
        conv_lhs => rw [← takeWhile_append_dropWhile (p := (· == ' ')) (l := after)]
        rw [line_append (not_mem_takeWhile rfl after), hem, append_nil]
      rw [hli]
      exact ⟨_, dropLast_spaces hn⟩
    · cases h

theorem beforeLastParenthesis?_prefix {inside : List Char}
    (h : beforeLastParenthesis? cs = some inside) : inside ++ [')'] <+: cs := by
  unfold beforeLastParenthesis? at h
  split at h
  · rename_i c front hf
    cases h
    have hc := head?_dropWhile_not (· != ')') cs.reverse
    rw [hf] at hc
    obtain rfl : c = ')' := by simpa using hc
    have hs : ')' :: front <:+ cs.reverse := hf ▸ dropWhile_suffix _
    rw [← reverse_suffix, reverse_append, reverse_reverse]
    exact hs
  · cases h

theorem mixinHead?_cut {head : MixinHead} (h : mixinHead? cs = some head) :
    0 < head.width ∧ ∃ front after, '\n' ∉ front ∧ cs = front ++ after ∧
      front.length = head.width := by
  obtain ⟨after₁, h₁, h⟩ := bind_eq_some_iff.mp h
  obtain ⟨after₂, h₂, h⟩ := bind_eq_some_iff.mp h
  obtain ⟨name, h₃, h⟩ := bind_eq_some_iff.mp h
  obtain ⟨-, hp, hb⟩ := name?_cut h₃
  have hn : SameLine (after₂.drop name.length) after₁ :=
    (SameLine.drop hp hb).trans (afterSpaces?_sameLine h₂)
  -- what is left behind the head, but for spaces, is on the line of the word
  have hw : ∀ after, SameLine after after₁ →
      0 < cs.length - (after.dropWhile (· == ' ')).length ∧ ∃ front rest, '\n' ∉ front ∧
        cs = front ++ rest ∧ front.length = cs.length - (after.dropWhile (· == ' ')).length := by
    intro after ha
    obtain ⟨front, hf, hr⟩ := (SameLine.dropWhile (p := (· == ' ')) rfl after).trans ha
    have hc : cs = "mixin".toList ++ front ++ after.dropWhile (· == ' ') := by
      rw [append_assoc, ← hr]
      exact afterWord?_cut h₁
    have hl : cs.length - (after.dropWhile (· == ' ')).length =
        ("mixin".toList ++ front).length := by
      rw [hc, length_append, Nat.add_sub_cancel]
    refine ⟨hl ▸ Nat.succ_pos _, _, _, ?_, hc, hl.symm⟩
    rw [mem_append]
    exact not_or.mpr ⟨by decide, hf⟩
  dsimp only at h
  split at h
  · rename_i rest hr
    have ho : SameLine ('(' :: rest) after₁ := hr ▸ (SameLine.dropWhile rfl _).trans hn
    split at h
    · rename_i inside hi
      cases h
      refine hw _ (SameLine.trans ?_ ((SameLine.cons (by decide) rest).trans ho))
      have hh := beforeLastParenthesis?_prefix hi
      have hb : '\n' ∉ inside ++ [')'] := fun hb =>
        not_mem_takeWhile rfl rest (hh.subset hb)
      have hd := SameLine.drop (hh.trans ( takeWhile_prefix _)) hb
      rwa [length_append] at hd
    · cases h
      exact hw _ hn
  · cases h
    exact hw _ hn

end Pattern

/-! ## Lines -/

theorem trim_isPart (cs : List Char) : trim cs <:+: cs := by
  have hen : trimEnd (trimStart cs) <+: trimStart cs := by
    rw [trimEnd, ← reverse_suffix, reverse_reverse]
    exact dropWhile_suffix _
  exact hen.isInfix.trans (dropWhile_suffix _).isInfix

theorem flatMap_splitLines (cs : List Char) :
    (splitLines cs).flatMap (fun line => '\n' :: line) = '\n' :: cs := by
  fun_induction splitLines cs with
  | case1 => rfl
  | case2 cs ih => exact congrArg ('\n' :: ·) ih
  | case3 c cs hc hs ih =>
    rw [hs] at ih
    cases ih
  | case4 c cs hc line rest hs ih =>
    rw [hs] at ih
    simp only [flatMap_cons, cons_append, cons.injEq, true_and] at ih ⊢
    exact ih

theorem mem_splitLines {line : List Char} (h : line ∈ splitLines cs) : '\n' ∉ line ∧ line ⊆ cs := by
  fun_induction splitLines cs generalizing line with
  | case1 =>
    rw [mem_singleton.mp h]
    exact ⟨not_mem_nil, Subset.refl _⟩
  | case2 cs ih =>
    rcases mem_cons.mp h with rfl | h
    · exact ⟨not_mem_nil, nil_subset _⟩
    · exact ⟨(ih h).1, subset_cons_of_subset _ (ih h).2⟩
  | case3 c cs hc hs ih =>
    rw [mem_singleton.mp h]
    exact ⟨fun hm => hc (mem_singleton.mp hm).symm, by simp⟩
  | case4 c cs hc line' rest hs ih =>
    rw [hs] at ih
    rcases mem_cons.mp h with rfl | h
    · obtain ⟨hb, hsu⟩ := ih (mem_cons_self ..)
      refine ⟨fun hm => ?_, cons_subset_cons c hsu⟩
      exact (mem_cons.mp hm).elim (fun heq => hc heq.symm) hb
    · obtain ⟨hb, hsu⟩ := ih (mem_cons_of_mem _ h)
      exact ⟨hb, subset_cons_of_subset _ hsu⟩

theorem dropBytes_subset (n : Nat) (cs : List Char) : Lexer.dropBytes n cs ⊆ cs := by
  fun_induction Lexer.dropBytes n cs with
  | case1 | case2 => exact Subset.refl _
  | case3 c cs _ _ _ ih => exact subset_cons_of_subset _ ih
  | case4 => exact nil_subset _

theorem mem_blockTexts {inBlock : List Char → Bool} {width : Nat} {text : List Char}
    (h : text ∈ ((splitLines cs).takeWhile inBlock).map (Lexer.dropBytes width)) :
    '\n' ∉ text ∧ text ⊆ cs := by
  obtain ⟨line, hl, rfl⟩ := mem_map.mp h
  obtain ⟨hbr, hs⟩ := mem_splitLines (( takeWhile_prefix _).subset hl)
  have hb := dropBytes_subset width line
  exact ⟨fun hc => hbr (hb hc), Subset.trans hb hs⟩

theorem dropEmptyEnd_subset (lines : List (List Char)) : Lexer.dropEmptyEnd lines ⊆ lines := by
  intro line h
  have h := (dropWhile_suffix _).subset (mem_reverse.mp h)
  exact mem_reverse.mp h

/-! ## Parts that rules share -/

namespace Setting

variable {env : Setting} {s : Lexer} {cs : List Char}

/-- **A bracket** cuts the text into what stands before it, inside of it and behind it. -/
theorem bracketed_cut {skip : Nat} {inside : List Char} (h : env.bracketed s skip = .ok inside) :
    ∃ front opener closer after,
      s.rest = front ++ [opener] ++ inside ++ [closer] ++ after ∧ front.length = skip ∧
        closer? opener = some closer := by
  unfold bracketed at h
  split at h
  · cases h
  · rename_i closer hc
    obtain ⟨opener, ho, hc⟩ := bind_eq_some_iff.mp hc
    split at h
    · rename_i inside' after hs
      obtain rfl := Except.ok.inj h
      obtain ⟨rest, rfl, hr⟩ := Nesting.scanUntilChar_cut hs
      have hd : s.rest.drop skip = opener :: (inside' ++ closer :: rest) := by
        rw [← hr, ← drop_drop, drop_one]
        exact eq_cons_of_mem_head? ho
      have hl := congrArg length hd
      rw [length_drop, length_cons] at hl
      refine ⟨s.rest.take skip, opener, closer, rest, ?_, ?_, hc⟩
      · calc s.rest = s.rest.take skip ++ s.rest.drop skip := (take_append_drop ..).symm
          _ = s.rest.take skip ++ [opener] ++ inside' ++ [closer] ++ rest := by rw [hd]; simp
      · rw [length_take]
        omega
    · cases h
    · cases h

theorem wordValue?_cut {word : String} {isPart : Char → Bool} {next : Lexer} {value : List Char}
    (h : wordValue? word isPart s = some (value, next)) :
    value ≠ [] ∧ ∃ spaces, s.rest = word.toList ++ spaces ++ value ++ next.rest ∧
      (isPart '\n' = false → '\n' ∉ spaces ++ value) ∧
      next = { s with
        rest := next.rest, column := s.column + (word.length + spaces.length + value.length) } := by
  obtain ⟨rest, hw, h⟩ := bind_eq_some_iff.mp h
  obtain ⟨⟨spaces, value'⟩, hv, h⟩ := bind_eq_some_iff.mp h
  obtain ⟨rfl, rfl⟩ := Prod.mk.inj (some.inj h)
  obtain ⟨hn, hl, after, hr⟩ := spacedValue?_cut hv
  have hc : s.rest = word.toList ++ spaces ++ value' ++ after := by
    rw [afterWord?_cut hw, hr]
    simp only [append_assoc]
  have hd : s.rest.drop (word.length + spaces.length + value'.length) = after := by
    rw [hc]
    refine drop_left' ?_
    rw [length_append, length_append, String.length_toList]
  refine ⟨hn, spaces, ?_, hl, rfl⟩
  exact hc.trans (congrArg _ hd.symm)

theorem loopHead?_cut {head : Pattern.EachHead} (h : loopHead? cs = some head) :
    head.list <:+ line cs ∧ ∃ word ∈ ["each", "for"], ∃ after, cs = word.toList ++ after := by
  have hc : ∀ word ∈ ["each", "for"], (afterWord? word cs).bind eachHead? = some head →
      head.list <:+ line cs ∧ ∃ word ∈ ["each", "for"], ∃ after, cs = word.toList ++ after := by
    intro word hw h
    obtain ⟨rest, hr, hh⟩ := bind_eq_some_iff.mp h
    have hl : '\n' ∉ word.toList := by
      simp only [mem_cons, not_mem_nil, or_false] at hw
      rcases hw with rfl | rfl
      all_goals decide
    have hs : SameLine rest cs := ⟨_, hl, afterWord?_cut hr⟩
    exact ⟨(eachHead?_cut hh).trans hs.line, word, hw, rest, afterWord?_cut hr⟩
  unfold loopHead? at h
  cases hea : (afterWord? "each" cs).bind eachHead? with
  | some found =>
    rw [hea] at h
    obtain rfl : found = head := some.inj h
    exact hc "each" (by simp) hea
  | none =>
    rw [hea] at h
    exact hc "for" (by simp) h

theorem textLine?_cut {lead text : List Char} (h : textLine? cs = some (lead, text)) :
    lead ++ text ≠ [] ∧ '\n' ∉ lead ++ text ∧ ∃ after, cs = lead ++ text ++ after := by
  have hl : ∀ cs, '\n' ∉ line cs := not_mem_takeWhile rfl
  unfold textLine? at h
  split at h
  · split at h
    · split at h
      all_goals cases h
      · exact ⟨cons_ne_nil _ _, by decide, _, rfl⟩
      · rename_i rest _
        obtain ⟨after, ha⟩ := line_cut rest
        exact ⟨cons_ne_nil _ _, by simp [hl], after, congrArg ('|' :: ' ' :: ·) ha⟩
    · cases h
      obtain ⟨after, ha⟩ := line_cut _
      exact ⟨cons_ne_nil _ _, by simp [hl], after, congrArg ('|' :: ·) ha⟩
  · rename_i rest
    split at h
    all_goals cases h
    · exact ⟨cons_ne_nil _ _, by decide, _, rfl⟩
    · obtain ⟨after, ha⟩ := line_cut rest
      exact ⟨cons_ne_nil _ _, by simp [hl], after, congrArg (' ' :: ·) ha⟩
  · cases h

theorem codeMarks?_cut {marks : Nat} {flags : Bool × Bool}
    (h : codeMarks? cs = some (marks, flags)) :
    0 < marks ∧ marks ≤ cs.length ∧ '\n' ∉ cs.take marks := by
  unfold codeMarks? at h
  split at h
  · cases h
    exact ⟨by omega, Nat.le_add_left _ _, by simp⟩
  · cases h
    exact ⟨by omega, Nat.le_add_left _ _, by simp⟩
  · cases h
    exact ⟨by omega, Nat.le_add_left _ _, by simp⟩
  · cases h

theorem codeLine?_cut {line : List Char} {gap : Nat} (h : codeLine? cs = some (gap, line)) :
    line ≠ [] ∧ ∃ blanks after, '\n' ∉ blanks ++ line ∧ cs = blanks ++ line ++ after ∧
      blanks.length = gap := by
  have hc := (takeWhile_append_dropWhile (p := isGap) (l := cs)).symm
  have hg : '\n' ∉ cs.takeWhile isGap := not_mem_takeWhile rfl cs
  unfold codeLine? at h
  dsimp only at h
  split at h
  · rename_i hn
    cases h
    obtain ⟨after, ha⟩ := line_cut (cs.dropWhile isGap)
    refine ⟨by simpa using hn, cs.takeWhile isGap, after, ?_, ?_, rfl⟩
    · rw [mem_append]
      exact not_or.mpr ⟨hg, not_mem_takeWhile rfl _⟩
    · rw [append_assoc, ← ha]
      exact hc
  · obtain ⟨c, hl, h⟩ := map_eq_some_iff.mp h
    cases h
    refine ⟨cons_ne_nil _ _, (cs.takeWhile isGap).dropLast,
      cs.dropWhile isGap, ?_, ?_, length_dropLast⟩
    all_goals rw [dropLast_append_getLast? c hl]
    · exact hg
    · exact hc

end Setting
end PugTemplate
