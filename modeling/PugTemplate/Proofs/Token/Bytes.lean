import PugTemplate.Proofs.Token.Progress
import PugTemplate.Token.ByteLexer
/-!
# Slices and loops of the lexer over bytes

Each part of `ByteLexer` does what the part of `Setting` does that it stands for: no slice is outside
of its text or inside of a character, no difference is below zero, and no turn of a loop leaves as
much to do as there was before it.
-/

namespace PugTemplate

open List Pattern Text Setting

namespace Checked

variable {α β : Type}

theorem ok_bind (a : α) (f : α → Checked β) : ((.ok a : Checked α) >>= f) = f a := rfl

theorem bind_of {x : Except Diagnostic α} {f : α → Except Diagnostic β} {g : α → Checked β}
    (h : ∀ a, x = .ok a → g a = .of (f a)) : (Checked.of x >>= g) = .of (x >>= f) := by
  cases x with
  | error d => rfl
  | ok a => exact h a rfl

theorem bind_map {γ : Type} {x : Except Diagnostic α} {f : α → γ} {g : γ → Checked β}
    {next : α → Except Diagnostic β} (h : ∀ a, x = .ok a → g (f a) = .of (next a)) :
    (Checked.of (x.map f) >>= g) = .of (x >>= next) := by
  cases x with
  | error d => rfl
  | ok a => exact h a rfl

end Checked

namespace ByteLexer

open Checked (ok_bind bind_of)

variable {env : Setting} {s : Lexer} {whole front rest : List Char} {n : Nat}

/-! ## Slices -/

@[simp] theorem size_nil : size [] = 0 := rfl

@[simp] theorem size_cons (c : Char) (cs : List Char) : size (c :: cs) = c.utf8Size + size cs := rfl

@[simp] theorem size_append (cs ds : List Char) : size (cs ++ ds) = size cs + size ds := by
  induction cs with
  | nil => exact (Nat.zero_add _).symm
  | cons c cs ih => rw [cons_append, size_cons, ih, size_cons, Nat.add_assoc]

theorem minus_of_le {a b : Nat} (h : b ≤ a) : minus a b = .ok (a - b) := if_pos h

theorem minus_eq {a b d : Nat} (h : a = d + b) : minus a b = .ok d := by
  rw [minus_of_le (h ▸ Nat.le_add_left ..), h, Nat.add_sub_cancel]

theorem cut_append (front rest : List Char) : cut (front ++ rest) (size front) = .ok (front, rest) := by
  induction front with
  | nil => rw [nil_append, size_nil, cut]
  | cons c front ih =>
    have hpos := c.utf8Size_pos
    obtain ⟨n, hn⟩ : ∃ n, size (c :: front) = n + 1 :=
      Nat.exists_eq_add_one_of_ne_zero (by rw [size_cons]; omega)
    have hrest : n + 1 = size front + c.utf8Size := by rw [← hn, size_cons, Nat.add_comm]
    rw [hn, cons_append, cut, minus_eq hrest]
    show (cut (front ++ rest) (size front) >>= _) = _
    rw [ih]
    rfl

theorem upTo_eq (h : whole = front ++ rest) (hn : n = size front) : upTo whole n = .ok front := by
  rw [upTo, h, hn, cut_append]
  rfl

theorem behind_eq (h : whole = front ++ rest) (hn : n = size front) :
    behind whole n = .ok rest := by
  rw [behind, h, hn, cut_append]
  rfl

theorem slice_eq {part : List Char} {start stop : Nat} (h : whole = front ++ part ++ rest)
    (hstart : start = size front) (hstop : stop = size front + size part) :
    slice whole start stop = .ok part := by
  rw [slice, behind_eq (h.trans (append_assoc ..)) hstart]
  show (minus stop start >>= _) = _
  rw [minus_eq (d := size part) (by omega)]
  exact upTo_eq rfl rfl

/-! ## Moves -/

theorem consume_eq (h : front <+: s.rest) (hn : n = size front) :
    consume s n = .ok (s.consume front.length) := by
  obtain ⟨rest, hrest⟩ := h
  have hmin : min n (size s.rest) = size front := by
    rw [← hrest, size_append]
    omega
  rw [consume, behind_eq hrest.symm hmin, Lexer.consume, ← hrest, drop_left]
  rfl

theorem skipOver_eq (s : Lexer) (text : List Char) : skipOver s text = .ok (s.skipOver text) := by
  have hcut := takeWhile_append_dropWhile (p := isOnLine) (l := text.reverse)
  unfold skipOver Lexer.skipOver
  cases hd : text.reverse.dropWhile isOnLine with
  | nil =>
    rw [hd, append_nil] at hcut
    have hbreak : '\n' ∉ text := by
      rw [← mem_reverse, ← hcut]
      exact not_mem_takeWhile rfl _
    simp only [hcut, count_eq_zero.mpr hbreak, length_reverse]
    rfl
  | cons c back =>
    have hc := head?_dropWhile_not isOnLine text.reverse
    rw [hd] at hc hcut
    obtain rfl : c = '\n' := by simpa [isOnLine] using hc
    have htext : text = (back.reverse ++ ['\n']) ++ (text.reverse.takeWhile isOnLine).reverse := by
      rw [← reverse_cons, ← reverse_append, hcut, reverse_reverse]
    dsimp only
    rw [behind_eq htext (by rw [size_append]; rfl)]
    show Except.ok ((s.advanceLine _).advanceColumn (reverse _).length) = _
    rw [length_reverse]

theorem scan_eq {lead value : List Char} (h : lead ++ value <+: s.rest) :
    scan s (lead ++ value) value =
      .ok (s.position, (s.consume (lead ++ value).length).advanceColumn lead.length) := by
  rw [scan, minus_eq length_append, consume_eq h rfl]
  rfl

theorem size_run {c : Char} (hc : c.utf8Size = 1) (cs : List Char) :
    size (cs.takeWhile (· == c)) = (cs.takeWhile (· == c)).length := by
  have hall : ∀ d ∈ cs.takeWhile (· == c), d = c := fun d hd => by
    simpa using mem_takeWhile_imp hd
  generalize cs.takeWhile (· == c) = run at hall
  induction run with
  | nil => rfl
  | cons d run ih =>
    obtain ⟨hd, hall⟩ := forall_mem_cons.mp hall
    rw [size_cons, length_cons, ih hall, hd, hc, Nat.add_comm]

theorem scanEndOfLine_eq (h : whole <+: s.rest) :
    scanEndOfLine s whole = .ok (s.takeToLineEnd whole) := by
  obtain ⟨after, hrest⟩ := h
  have hspaces := takeWhile_append_dropWhile (p := (· == ' ')) (l := whole)
  have hsize := congrArg size hspaces
  have hlength := congrArg length hspaces
  rw [size_append, size_run rfl] at hsize
  rw [length_append] at hlength
  rw [scanEndOfLine, Lexer.takeToLineEnd, minus_eq hsize.symm, ok_bind,
    behind_eq hrest.symm rfl, ok_bind, ← hrest, drop_left]
  cases hend : endOfLine? after with
  | none => rfl
  | some rest =>
    obtain ⟨blanks, hblanks⟩ := (endOfLine?_sameLine hend).suffix
    have hfront : whole ++ blanks <+: s.rest := ⟨rest, by rw [append_assoc, hblanks, hrest]⟩
    have hdrop : s.rest.drop (whole ++ blanks).length = rest := by
      rw [← hrest, ← hblanks, ← append_assoc, drop_left]
    dsimp only
    rw [minus_eq (d := size blanks) (by rw [← hblanks, size_append]), ok_bind,
      consume_eq (s := s.advanceColumn _) hfront (size_append ..).symm, ok_bind,
      minus_eq (d := (whole.dropWhile (· == ' ')).length) (by omega), ok_bind]
    simp only [pure, Except.pure, Option.map_some, Lexer.advanceColumn, Lexer.consume,
      Lexer.position, hdrop]
    congr 5
    omega

/-! ## Brackets -/

/-- What a scan finds, with the places that it has in bytes behind the start. -/
def placed (start : Nat) :
    Except Nesting.Fault (List Char × List Char) → Except ScanFault (Nat × List Char)
  | .ok (source, _) => .ok (start + size source, source)
  | .error (.mismatched found before) => .error (.mismatched found (start + size before))
  | .error (.unfinished before) => .error (.unfinished (start + size before))

theorem scanUntil_from {closer : Char} {src lead cs : List Char} {state : Nesting.State}
    (h : src = lead ++ state.taken.reverse ++ cs) :
    scanUntil src closer (size lead) state (size (lead ++ state.taken.reverse)) =
      .ok (placed (size lead)
        (Nesting.scanUntilFrom (fun rest => rest.head? == some closer) {} state cs)) := by
  induction cs generalizing state with
  | nil =>
    rw [append_nil] at h
    rw [scanUntil, h, if_neg (Nat.lt_irrefl _), size_append]
    rfl
  | cons c cs ih =>
    have hlt : size (lead ++ state.taken.reverse) < size src := by
      have hpos := c.utf8Size_pos
      rw [h, size_append _ (c :: cs), size_cons]
      omega
    rw [scanUntil, if_pos hlt, behind_eq h rfl, ok_bind, Nesting.scanUntilFrom]
    show (if (!state.isNesting false && c == closer) = true then _ else _) = Except.ok (placed _
      (if (!state.isNesting false && c == closer) = true then _ else _))
    split
    · rw [slice_eq h rfl (size_append ..), size_append]
      rfl
    · cases hpush : state.push c with
      | none =>
        rw [size_append]
        rfl
      | some next =>
        have htaken : next.taken.reverse = state.taken.reverse ++ [c] := by
          rw [Nesting.State.taken_push hpush, reverse_cons]
        have hnext := @ih next (by rw [htaken, h]; simp)
        rw [htaken, ← append_assoc, size_append _ [c]] at hnext
        exact hnext

theorem scanUntil_eq (closer : Char) (src : List Char) :
    scanUntil src closer 0 {} 0 = .ok (placed 0 (Nesting.scanUntilChar closer src)) :=
  @scanUntil_from closer src [] src {} rfl

theorem size_opener {opener closer : Char} (h : closer? opener = some closer) :
    size [opener] = 1 := by
  unfold closer? at h
  split at h <;> first | rfl | cases h

theorem bracketed_eq (h : front <+: s.rest) (hn : n = size front) : bracketed env s n =
    .of ((env.bracketed s front.length).map fun inside => (n + 1 + size inside, inside)) := by
  obtain ⟨after, hrest⟩ := h
  have hdrop : s.rest.drop front.length = after := by rw [← hrest, drop_left]
  rw [bracketed, behind_eq hrest.symm hn, ok_bind, Setting.bracketed, ← drop_drop, hdrop]
  cases hcloser : after.head?.bind closer? with
  | none => rfl
  | some closer =>
    obtain ⟨opener, hhead, hopener⟩ := Option.bind_eq_some_iff.mp hcloser
    obtain ⟨inner, rfl⟩ : ∃ inner, after = opener :: inner := ⟨_, eq_cons_of_mem_head? hhead⟩
    have hsrc : s.rest = (front ++ [opener]) ++ inner := by
      rw [append_assoc]
      exact hrest.symm
    have hlead : n + 1 = size (front ++ [opener]) := by
      rw [size_append, size_opener hopener, hn]
    have hscan : scanUntil s.rest closer (n + 1) {} (n + 1) =
        .ok (placed (n + 1) (Nesting.scanUntilChar closer inner)) := by
      rw [hlead]
      have hfrom := @scanUntil_from closer s.rest (front ++ [opener]) inner {}
        (hsrc.trans (congrArg (· ++ inner) (append_nil _).symm))
      rwa [show ({} : Nesting.State).taken.reverse = [] from rfl, append_nil] at hfrom
    have htake : s.rest.take (front.length + 1) = front ++ [opener] := by
      rw [hsrc]
      exact take_left' length_append
    dsimp only
    rw [hscan, ok_bind, drop_one, tail_cons, htake]
    cases hfound : Nesting.scanUntilChar closer inner with
    | ok found => rfl
    | error fault =>
      obtain ⟨more, hmore⟩ := Nesting.before_prefix hfound
      cases fault with
      | mismatched found before =>
        have hbefore : s.rest = (front ++ [opener] ++ before) ++ more := by
          rw [hsrc, ← hmore, append_assoc _ before]
          rfl
        dsimp only [placed]
        rw [upTo_eq hbefore (by rw [size_append _ before, hlead]), ok_bind, skipOver_eq]
        rfl
      | unfinished before =>
        dsimp only [placed]
        rw [upTo_eq hrest.symm hn]
        rfl

/-! ## Text -/

theorem addCode_eq (escape : Bool) (body : List Char) (s : Lexer) :
    addCode env escape body s = .of (env.addCode escape body s) := by
  rw [addCode, scanUntil_eq, ok_bind, Setting.addCode]
  cases hscan : Nesting.scanUntilChar '}' body with
  | ok found =>
    obtain ⟨source, after⟩ := found
    obtain ⟨rest, rfl, hbody⟩ := Nesting.scanUntilChar_cut hscan
    have hwhole : body = (source ++ ['}']) ++ rest := by rw [hbody, append_cons]
    have hsize : 0 + size source + 1 = size (source ++ ['}']) := by
      rw [size_append, Nat.zero_add]
      rfl
    dsimp only [placed]
    refine bind_of fun _ _ => ?_
    rw [upTo_eq hwhole hsize, ok_bind, behind_eq hwhole hsize, length_append]
    rfl
  | error fault =>
    obtain ⟨more, hmore⟩ := Nesting.before_prefix hscan
    cases fault with
    | unfinished before => rfl
    | mismatched found before =>
      have hbefore : body = before ++ more := hmore.symm
      dsimp only [placed]
      rw [upTo_eq hbefore (Nat.zero_add _)]
      rfl

/-- **The lexers of tag interpolations** do what those of the setting do on a line. There are no hooks,
and what these lexers hand back is a part of the text. -/
structure Follows (env : Setting) (depth : Nat) (nested : Option (Lexer → Checked Lexer)) : Prop where
  hooks : env.hooks = []
  delegates : env.Delegates depth
  reads : match nested with
    | none => env.nested = none
    | some read => ∃ own, env.nested = some own ∧ ∀ s, '\n' ∉ s.rest → read s = .of (own s)

variable {depth : Nat} {nested : Option (Lexer → Checked Lexer)}

theorem addTag_eq (hfollows : Follows env depth nested) {body : List Char} (hbody : '\n' ∉ body)
    (s : Lexer) : addTag env nested body s = .of (env.addTag body s) := by
  unfold addTag Setting.addTag
  cases nested with
  | none => rw [show env.nested = none from hfollows.reads]; rfl
  | some read =>
    obtain ⟨own, hown, hread⟩ := hfollows.reads
    rw [hown]
    dsimp only
    rw [hread _ hbody]
    exact bind_of fun _ _ => rfl

theorem markerAt_append {m : Marker} {interpolated interpolating : Bool} {cs after : List Char}
    (more : List Char) (h : markerAt interpolating interpolated cs = some (m, after)) :
    markerAt interpolating interpolated (cs ++ more) = some (m, after ++ more) := by
  unfold markerAt at h
  split at h
  all_goals first
    | cases h
    | split at h
      · rename_i ha
        cases h
        simp [markerAt, ha]
      · cases h

theorem nextMarker_before {m : Marker} {interpolated interpolating : Bool}
    {text before after : List Char}
    (h : nextMarker interpolating interpolated text = (before, some (m, after))) :
    nextMarker interpolating interpolated before = (before, none) := by
  induction text generalizing before with
  | nil => cases h
  | cons c cs ih =>
    unfold nextMarker at h
    split at h
    · cases h
      rfl
    · rename_i hn
      obtain ⟨hb, hf⟩ := Prod.mk.inj h
      obtain rfl := hb
      have hc : nextMarker interpolating interpolated cs =
          ((nextMarker interpolating interpolated cs).1, some (m, after)) :=
        Prod.ext rfl hf
      generalize (nextMarker interpolating interpolated cs).1 = before at hc
      have hp : markerAt interpolating interpolated (c :: before) = none := by
        cases hm : markerAt interpolating interpolated (c :: before) with
        | none => rfl
        | some found =>
          have ht := markerAt_append (m.text ++ after) hm
          rw [cons_append, ← append_assoc, ← (nextMarker_cut hc).1, hn] at ht
          cases ht
      rw [nextMarker, hp, ih hc]

theorem nextMarker_none {interpolated interpolating : Bool} {text before : List Char}
    (h : nextMarker interpolating interpolated text = (before, none)) : before = text := by
  induction text generalizing before with
  | nil => cases h; rfl
  | cons c cs ih =>
    unfold nextMarker at h
    split at h
    · cases h
    · obtain ⟨rfl, hnone⟩ := Prod.mk.inj h
      exact congrArg (c :: ·) (ih (Prod.ext rfl hnone))

theorem size_marker {m : Marker} {interpolated interpolating : Bool} {text before after : List Char}
    (h : nextMarker interpolating interpolated text = (before, some (m, after))) :
    size m.text = m.text.length := by
  induction text generalizing before with
  | nil => cases h
  | cons c cs ih =>
    unfold nextMarker at h
    split at h
    · rename_i found hfound
      obtain ⟨-, hm⟩ := Prod.mk.inj h
      rw [hm] at hfound
      unfold markerAt at hfound
      split at hfound
      all_goals first
        | cases hfound
        | split at hfound
          · cases hfound
            rfl
          · cases hfound
    · exact ih (Prod.ext rfl (Prod.mk.inj h).2)

theorem addText_eq (hfollows : Follows env depth nested)
    (form : TextForm) {n : Nat} {front text : List Char} {shifted : Bool} {s : Lexer}
    (hline : '\n' ∉ text) (hn : text.length < n) :
    addText env nested form front shifted text s =
      .of (env.addTextSteps form n front shifted text s) := by
  induction n generalizing front shifted text s with
  | zero => exact absurd hn (Nat.not_lt_zero _)
  | succ n ih =>
    have honward {rest : List Char} (hlt : rest.length < text.length) (hrest : rest ⊆ text)
        (front : List Char) (shifted : Bool) (s : Lexer) :
        (if _h : rest.length < text.length then addText env nested form front shifted rest s
          else .error .stuck) = .of (env.addTextSteps form n front shifted rest s) := by
      rw [dif_pos hlt]
      exact ih (fun h => hline (hrest h)) (by omega)
    rw [addText, addTextSteps]
    cases hmarker : nextMarker s.interpolating env.interpolated text with
    | mk before found =>
      obtain _ | ⟨m, after⟩ := found
      · rw [nextMarker_none hmarker]
        rfl
      · have htext := (nextMarker_cut hmarker).1
        have hlength := congrArg length htext
        have hmark := length_pos_of_ne_nil m.text_ne_nil
        simp only [length_append] at hlength
        have hlead : upTo text (size before) = .ok before :=
          upTo_eq (htext.trans (append_assoc ..)) rfl
        have hbehind : behind text (size before + m.text.length) = .ok after :=
          behind_eq htext (by rw [size_append, size_marker hmarker])
        have hafter : '\n' ∉ after := fun h => hline (htext ▸ mem_append_right _ h)
        have hrest {rest : List Char} (h : rest <:+ after) :
            rest.length < text.length ∧ rest ⊆ text := by
          have hle := h.length_le
          exact ⟨by omega, (h.trans ⟨_, htext.symm⟩).subset⟩
        dsimp only
        cases m with
        | literalTag | literalCode sigil =>
          have hbehind : behind text (size before + 3) = .ok after := hbehind
          dsimp only
          rw [hlead, ok_bind, hbehind, ok_bind]
          exact honward (hrest suffix_rfl).1 (hrest suffix_rfl).2 _ _ _
        | close =>
          have hbehind : behind text (size before + 1) = .ok after := hbehind
          dsimp only
          rw [hlead, ok_bind, hbehind]
          split
          · rename_i hempty
            obtain ⟨hfront, hbefore⟩ := Bool.and_eq_true_iff.mp hempty
            rw [isEmpty_iff.mp hfront, isEmpty_iff.mp hbefore]
            rfl
          · -- The text before the end is read on its own, and there is no marker in it.
            obtain ⟨n, rfl⟩ : ∃ k, n = k + 1 := Nat.exists_eq_add_one_of_ne_zero (by omega)
            have hbefore : before ⊆ text := by
              rw [htext, append_assoc]
              exact subset_append_left ..
            rw [honward (by omega) hbefore, addTextSteps, nextMarker_before hmarker]
            rfl
        | tag =>
          have hbehind : behind text (size before + 2) = .ok after := hbehind
          dsimp only
          rw [hlead, ok_bind, hbehind, ok_bind, addTag_eq hfollows hafter]
          refine bind_of fun found hfound => ?_
          have hfound := hrest ((yields_addTag hfollows.delegates hafter _).of_ok hfound).1
          exact honward hfound.1 hfound.2 _ _ _
        | code escape =>
          have hbehind : behind text (size before + 2) = .ok after := hbehind
          dsimp only
          rw [hlead, ok_bind, hbehind, ok_bind, addCode_eq]
          refine bind_of fun found hfound => ?_
          have hfound := hrest ((yields_addCode depth _ hafter _).of_ok hfound).1
          exact honward hfound.1 hfound.2 _ _ _

theorem text_eq (hfollows : Follows env depth nested) (s : Lexer) :
    text env nested s = .of (env.text s) := by
  unfold text Setting.text
  cases hfound : textLine? s.rest with
  | none => rfl
  | some found =>
    obtain ⟨lead, text⟩ := found
    obtain ⟨-, hline, after, hrest⟩ := textLine?_cut hfound
    have hfree : '\n' ∉ text := fun h => hline (mem_append_right _ h)
    dsimp only
    rw [scan_eq ⟨after, hrest.symm⟩, ok_bind, length_append,
      addText_eq hfollows .plain hfree (Nat.lt_succ_self _)]
    exact bind_of fun _ _ => rfl

theorem textHtml_eq (hfollows : Follows env depth nested) (s : Lexer) :
    textHtml env nested s = .of (env.textHtml s) := by
  unfold textHtml
  have hscan := scan_eq (show [] ++ line s.rest <+: s.rest from takeWhile_prefix _)
  rw [nil_append] at hscan
  split
  · rename_i hrest
    rw [hscan, ok_bind]
    dsimp only
    rw [addText_eq hfollows .html (not_mem_line _) (Nat.lt_succ_self _)]
    simp only [Setting.textHtml, hrest]
    exact bind_of fun _ _ => rfl
  · simp only [Setting.textHtml]
    rfl

/-! ## Blocks of text -/

theorem repeatRule_eq (hhooks : env.hooks = []) {checked : Lexer → Step} {own : Lexer → PugTemplate.Step}
    (rule : Rule) (hrule : ∀ s, checked s = .of (own s))
    (hshorter : ∀ s t, own s = .ok (true, t) → t.rest.length < s.rest.length) {n : Nat} {s : Lexer}
    (hn : s.rest.length < n) : repeatRule checked s = .of (env.repeatCall rule own n s) := by
  induction n generalizing s with
  | zero => exact absurd hn (Nat.not_lt_zero _)
  | succ n ih =>
    rw [repeatRule, Setting.repeatCall, call_eq hhooks, hrule]
    refine bind_of fun out hout => ?_
    obtain ⟨_ | _, next⟩ := out
    · rfl
    · have hlt := hshorter s next hout
      dsimp only
      rw [if_neg (by decide), dif_pos hlt, if_pos rfl]
      exact ih (by omega)

theorem blank_eq (s : Lexer) : blank s = .of s.blank := by
  unfold blank
  split
  · rename_i cs hrest
    split
    · rename_i rest hgap
      have hcut : s.rest = ('\n' :: cs.takeWhile isGap) ++ '\n' :: rest := by
        rw [hrest, ← hgap, cons_append, takeWhile_append_dropWhile]
      have hsize : size ('\n' :: cs.takeWhile isGap ++ ['\n']) =
          size ('\n' :: cs.takeWhile isGap) + 1 := size_append ..
      dsimp only
      rw [minus_eq hsize, ok_bind, consume_eq ⟨_, hcut.symm⟩ rfl, Lexer.consume, hcut, drop_left]
      simp only [Lexer.blank, hrest, hgap]
      rfl
    · simp only [Lexer.blank, hrest]
      rfl
  · simp only [Lexer.blank]
    rfl

theorem length_blank {s t : Lexer} (h : s.blank = .ok (true, t)) :
    t.rest.length < s.rest.length := by
  unfold Lexer.blank at h
  split at h
  · rename_i cs hrest
    split at h
    · rename_i rest hgap
      cases h
      have hle := (dropWhile_suffix (l := cs) isGap).length_le
      rw [hgap] at hle
      rw [hrest]
      exact Nat.lt_succ_of_le hle
    · cases h
  · cases h

/-- What the lines of a block of text come to: a width that is to be tried instead, or the lines and
the place behind them. -/
def blockFound (s : Lexer) (width offset : Nat) (before : List (List Char))
    (lines : List (List Char)) : Nat ⊕ (Nat × List (List Char)) :=
  let block := lines.takeWhile (s.inBlock width)
  let found := (offset + size (block.flatMap fun line => '\n' :: line),
    before ++ block.map (Lexer.dropBytes width))
  match lines.dropWhile (s.inBlock width) with
  | [] => .inr found
  | line :: _ => if s.indent < s.lineIndent line then .inl (s.lineIndent line) else .inr found

theorem blockLines_eq {width : Nat} {lines : List (List Char)} (hlines : lines ≠ [])
    (hfree : ∀ line ∈ lines, '\n' ∉ line) {passed : List Char} {before : List (List Char)}
    (h : s.rest = passed ++ lines.flatMap fun line => '\n' :: line) :
    blockLines s width (size passed) before =
      .ok (blockFound s width (size passed) before lines) := by
  induction lines generalizing passed before with
  | nil => exact absurd rfl hlines
  | cons first lines ih =>
    obtain ⟨hfirst, hfree⟩ := forall_mem_cons.mp hfree
    have hbody : s.rest = (passed ++ ['\n']) ++ (first ++ lines.flatMap fun line => '\n' :: line) := by
      rw [h, append_assoc]
      rfl
    have hline : line (first ++ lines.flatMap fun line => '\n' :: line) = first := by
      rw [line_append hfirst]
      cases lines <;> simp [line, isOnLine]
    rw [blockLines, behind_eq hbody (by rw [size_append]; rfl), ok_bind, hline,
      upTo_eq rfl rfl, ok_bind, blockFound, takeWhile_cons, dropWhile_cons]
    cases hin : s.inBlock width first with
    | false =>
      simp only [Bool.false_eq_true, if_false]
      split <;> simp [pure, Except.pure]
    | true =>
      have hnext : s.rest = (passed ++ '\n' :: first) ++ lines.flatMap fun line => '\n' :: line := by
        rw [h, flatMap_cons, append_assoc]
      have hoffset : size passed + size first + 1 = size (passed ++ '\n' :: first) := by
        rw [size_append, size_cons]
        show _ = size passed + (1 + size first)
        omega
      simp only [if_true]
      rw [hoffset]
      cases lines with
      | nil =>
        rw [dif_neg (by rw [hnext]; simp)]
        simp [pure, Except.pure]
      | cons second lines =>
        have hlt : size (passed ++ '\n' :: first) < size s.rest := by
          rw [hnext, size_append _ (flatMap ..), flatMap_cons, cons_append, size_cons]
          have hpos := '\n'.utf8Size_pos
          omega
        rw [dif_pos hlt, ih (cons_ne_nil _ _) hfree hnext, blockFound]
        simp [Nat.add_assoc, Nat.add_left_comm, Nat.add_comm]

/-- **A block of text** that is read again is wider to the left, but stays right of the line above
it. -/
theorem block_eq (s : Lexer) {cs : List Char} (hrest : s.rest = '\n' :: cs) (width : Nat) :
    let lines := splitLines cs
    let found := lines.takeWhile (s.inBlock (s.blockWidth lines width))
    block s width = .ok (s.blockWidth lines width, size (found.flatMap fun line => '\n' :: line),
      found.map (Lexer.dropBytes (s.blockWidth lines width))) := by
  intro lines
  have hall : s.rest = [] ++ lines.flatMap fun line => '\n' :: line :=
    hrest.trans (flatMap_splitLines cs).symm
  have hlines : lines ≠ [] := by
    intro hnil
    rw [hnil, hrest] at hall
    cases hall
  have hread (width : Nat) : blockLines s width 0 [] = .ok (blockFound s width 0 [] lines) :=
    blockLines_eq hlines (fun _ h => (mem_splitLines h).1) hall
  clear_value lines
  fun_induction Lexer.blockWidth s lines width with
  | case1 width hend =>
    dsimp only
    rw [block, hread, ok_bind, blockFound, hend, Nat.zero_add]
    rfl
  | case2 width line more hmore hnarrow ih =>
    dsimp only
    rw [block, hread, ok_bind, blockFound, hmore]
    dsimp only
    rw [if_pos hnarrow.1]
    dsimp only
    rw [dif_pos hnarrow]
    exact ih
  | case3 width line more hmore hwide =>
    have hout := head?_dropWhile_not (s.inBlock width) lines
    rw [hmore] at hout
    have hless : s.lineIndent line < width :=
      Nat.lt_of_not_le (of_decide_eq_false (Bool.or_eq_false_iff.mp hout).1)
    have hindent : ¬s.indent < s.lineIndent line := fun h => hwide ⟨h, hless⟩
    dsimp only
    rw [block, hread, ok_bind, blockFound, hmore]
    dsimp only
    rw [if_neg hindent, Nat.zero_add]
    rfl

theorem addLines_eq (hfollows : Follows env depth nested) (width : Nat)
    {first : Bool} {lines : List (List Char)} (hfree : ∀ line ∈ lines, '\n' ∉ line) {s : Lexer} :
    addLines env nested width first lines s = .of (env.addLines width first lines s) := by
  induction lines generalizing first s with
  | nil => rfl
  | cons line lines ih =>
    obtain ⟨hline, hfree⟩ := forall_mem_cons.mp hfree
    rw [addLines, Setting.addLines, addText_eq hfollows .plain hline (Nat.lt_succ_self _)]
    exact bind_of fun _ _ => ih hfree

theorem pipelessText_eq (hfollows : Follows env depth nested) (s : Lexer) :
    pipelessText env nested s = .of (env.callPipelessText s) := by
  rw [pipelessText, callPipelessText, call_eq hfollows.hooks, Setting.pipelessText, bind_assoc,
    repeatRule_eq hfollows.hooks .blank blank_eq (fun _ _ => length_blank) (Nat.lt_succ_self _)]
  refine bind_of fun t _ => ?_
  have hbreak := @indentation?_rest t
  have hsame := rest_indentation? t
  generalize t.indentation? = found at hbreak hsame ⊢
  obtain ⟨_ | width, t'⟩ := found
  · rfl
  · obtain ⟨cs, hrest, -⟩ := hbreak rfl
    rw [← hsame] at hrest
    dsimp only
    split
    · rfl
    · have hlines : splitLines (t'.rest.drop 1) = splitLines cs := by rw [hrest]; rfl
      obtain ⟨after, hcut, -⟩ := block_cut (t'.inBlock (t'.blockWidth (splitLines cs) width)) cs
      rw [block_eq t' hrest, ok_bind, hlines]
      dsimp only
      rw [consume_eq (s := t'.push .startPipelessText) ⟨after, hcut.symm.trans hrest.symm⟩ rfl,
        ok_bind, addLines_eq hfollows _ ?_]
      · simp only [bind_assoc]
        exact bind_of fun _ _ => rfl
      · intro line hline
        split at hline
        · exact (mem_blockTexts (dropEmptyEnd_subset _ hline)).1
        · exact (mem_blockTexts hline).1

end ByteLexer
end PugTemplate
