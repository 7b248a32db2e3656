import Mathlib.Data.List.Infix
import PugTemplate.Proofs.Program.Attributes
import PugTemplate.Proofs.Program.Bundle
/-!
# How code is put together

The writer puts its code together from texts of its own, from texts that the template gives and from
constants. Only a text of its own can hold a call of a helper that the writer itself has written. So
code is taken apart into `Chunk`s, and its `frame` is what the writer itself has written, with a
blank in every other place. `Spelled` says that all calls in the frame are of some helpers.
-/

namespace PugTemplate

open List
namespace Program

/-! ## Chunks -/

/-- The text of a call up to its parenthesis, in a program that has copies of helpers. -/
def Helper.callText (h : Helper) : String := "pug_" ++ h.name ++ "("

inductive Chunk where
  /-- Code of the writer's own. -/
  | own (code : String)
  /-- A text that is taken over as it stands. -/
  | given (text : String)
  /-- A constant of a script. -/
  | constant (value : Value)

namespace Chunk

def code : Chunk → String
  | .own code => code
  | .given text => text
  | .constant value => value.script

def frame : Chunk → List Char
  | .own code => code.toList
  | .given _ => [' ']
  | .constant _ => [' ']

def spell : List Chunk → String
  | [] => ""
  | c :: cs => c.code ++ spell cs

def frames (cs : List Chunk) : List Char := cs.flatMap frame

theorem spell_append (cs ds : List Chunk) : spell (cs ++ ds) = spell cs ++ spell ds := by
  induction cs with
  | nil => exact (String.empty_append).symm
  | cons c cs ih => rw [cons_append, spell, spell, ih, String.append_assoc]

end Chunk

open Chunk

/-- **Chunks of code.** The given ones are texts of the template, and the writer itself calls no
other helpers. -/
structure Spells (given : String → Prop) (helpers : List Helper) (chunks : List Chunk)
    (code : String) : Prop where
  code : spell chunks = code
  given : ∀ text, .given text ∈ chunks → given text
  calls : ∀ h : Helper, h.callText.toList <:+: frames chunks → h ∈ helpers

def Spelled (given : String → Prop) (helpers : List Helper) (code : String) : Prop :=
  ∃ chunks, Spells given helpers chunks code

/-! ## Calls across a seam -/

def isCallChar (c : Char) : Bool := c.isAlpha || c == '_'

def opens (cs : List Char) : Bool := cs.getLast?.all fun c => !isCallChar c

/-- No call that starts before this text goes on in it. -/
def closes (cs : List Char) : Bool := cs.head?.all fun c => !(isCallChar c || c == '(')

theorem callText_chars (h : Helper) :
    h.callText.toList.dropLast.all isCallChar ∧
      h.callText.toList.all fun c => isCallChar c || c == '(' := by
  cases h <;> exact ⟨rfl, rfl⟩

/-- A call in two texts is in one of them, if there is a seam between them. -/
theorem infix_seam {h : Helper} {a b : List Char} (hcut : opens a || closes b)
    (hcall : h.callText.toList <:+: a ++ b) :
    h.callText.toList <:+: a ∨ h.callText.toList <:+: b := by
  rcases infix_append_iff.mp hcall with ha | hb | ⟨front, back, heq, hfront, hback⟩
  · exact .inl ha
  · exact .inr hb
  · obtain ⟨hword, hchars⟩ := callText_chars h
    rcases eq_nil_or_concat front with rfl | ⟨front, c, rfl⟩
    · exact .inr (heq ▸ hback.isInfix)
    cases back with
    | nil => exact .inl (by rw [heq, append_nil]; exact hfront.isInfix)
    | cons d back =>
      -- the last character before the seam is in a name, and the first one behind it in a call
      obtain ⟨before, rfl⟩ := hfront
      obtain ⟨behind, rfl⟩ := hback
      have hlast : isCallChar c := by
        refine all_eq_true.mp hword c ?_
        rw [heq, dropLast_append_cons]
        simp
      have hfirst := all_eq_true.mp hchars d (by rw [heq]; simp)
      rw [concat_eq_append, ← append_assoc] at hcut
      have hclosed : isCallChar d = false ∧ d ≠ '(' := by simpa [opens, closes, hlast] using hcut
      simp [hclosed] at hfirst

variable {given : String → Prop} {helpers more : List Helper} {a b code : String}
  {chunks left right : List Chunk}

theorem Spells.append (ha : Spells given helpers left a) (hb : Spells given helpers right b)
    (hcut : opens (frames left) || closes (frames right)) :
    Spells given helpers (left ++ right) (a ++ b) where
  code := by rw [spell_append, ha.code, hb.code]
  given text h := (mem_append.mp h).elim (ha.given text) (hb.given text)
  calls h hcall := by
    rw [frames, flatMap_append] at hcall
    exact (infix_seam hcut hcall).elim (ha.calls h) (hb.calls h)

/-! ## Own code -/

def startsCall : List Char → Bool
  | 'p' :: 'u' :: 'g' :: '_' :: cs => Helper.all.any fun h => (h.name ++ "(").toList.isPrefixOf cs
  | _ => false

def holdsNoCall : List Char → Bool
  | [] => true
  | c :: cs => !startsCall (c :: cs) && holdsNoCall cs

def callsNothing (s : String) : Bool := holdsNoCall s.toList

theorem startsCall_of_front {h : Helper} {cs : List Char} (hfront : h.callText.toList <+: cs) :
    startsCall cs := by
  obtain ⟨rest, rfl⟩ := hfront
  have hcall : h.callText.toList ++ rest =
      'p' :: 'u' :: 'g' :: '_' :: ((h.name ++ "(").toList ++ rest) := by
    simp [Helper.callText]
  rw [hcall, startsCall, any_eq_true]
  exact ⟨h, Helper.mem_all h, isPrefixOf_iff_prefix.mpr (prefix_append ..)⟩

theorem not_infix_of_holdsNoCall (h : Helper) {cs : List Char} (hcs : holdsNoCall cs) :
    ¬h.callText.toList <:+: cs := by
  induction cs with
  | nil =>
    simp [Helper.callText]
  | cons c cs ih =>
    rw [holdsNoCall, Bool.and_eq_true, Bool.not_eq_true'] at hcs
    rw [infix_cons_iff]
    rintro (hfront | hwithin)
    · rw [startsCall_of_front hfront] at hcs
      exact Bool.noConfusion hcs.1
    · exact ih hcs.2 hwithin

theorem Helper.callText_inj {g h : Helper} (heq : g.callText = h.callText) : g = h := by
  have hnodup : (Helper.all.map Helper.name).Nodup := by decide +kernel
  rw [callText, callText, String.append_left_inj, String.append_right_inj] at heq
  exact inj_on_of_nodup_map hnodup (mem_all g) (mem_all h) heq

theorem Helper.eq_of_infix {g h : Helper} (hwithin : g.callText.toList <:+: h.callText.toList) :
    g = h := by
  have htail : h.callText.toList = 'p' :: h.callText.toList.tail ∧
      holdsNoCall h.callText.toList.tail := by
    cases h <;> exact ⟨rfl, rfl⟩
  rw [htail.1, infix_cons_iff, ← htail.1] at hwithin
  have hfront := hwithin.resolve_right (not_infix_of_holdsNoCall g htail.2)
  -- both texts end with their only parenthesis
  have hend (h : Helper) : h.callText.toList = ("pug_" ++ h.name).toList ++ ['('] :=
    String.toList_append
  rw [hend h, prefix_concat_iff] at hfront
  rcases hfront with hsame | hinner
  · exact callText_inj (String.toList_inj.mp (hsame.trans (hend h).symm))
  · have hparen : '(' ∈ h.callText.toList.dropLast := by
      rw [hend h, dropLast_concat]
      exact hinner.subset (by simp [hend g])
    have hchar := all_eq_true.mp (callText_chars h).1 _ hparen
    cases hchar

theorem spells_own (h : callsNothing code) : Spells given helpers [.own code] code where
  code := by simp [spell, Chunk.code]
  given := by simp
  calls helper hcall := by
    have hwithin : helper.callText.toList <:+: code.toList := by
      simpa [frames, frame] using hcall
    exact absurd hwithin (not_infix_of_holdsNoCall helper h)

def isStart (s : String) : Bool := opens s.toList && callsNothing s

def isEnd (s : String) : Bool := closes s.toList && callsNothing s

def isSeam (s : String) : Bool := !s.isEmpty && isStart s && isEnd s

namespace Spelled

theorem mono (h : Spelled given helpers code) (hsub : helpers ⊆ more) : Spelled given more code := by
  obtain ⟨chunks, hchunks⟩ := h
  exact ⟨chunks, hchunks.code, hchunks.given, fun h hcall => hsub (hchunks.calls h hcall)⟩

theorem of_given (h : given code) : Spelled given helpers code := by
  refine ⟨[.given code], by simp [spell, Chunk.code], by simp [h], fun helper hcall => ?_⟩
  exact absurd hcall (not_infix_of_holdsNoCall helper rfl)

theorem constant (value : Value) : Spelled given helpers value.script := by
  refine ⟨[.constant value], by simp [spell, Chunk.code], by simp, fun helper hcall => ?_⟩
  exact absurd hcall (not_infix_of_holdsNoCall helper rfl)

theorem literal (text : String) : Spelled given helpers (Text.Quoted.script text) :=
  constant (.string text)

theorem number (n : Nat) : Spelled given helpers (toString n) := constant (.int n)

theorem own (h : callsNothing code) : Spelled given helpers code := ⟨_, spells_own h⟩

theorem numbered (h : callsNothing code) (n : Nat) : Spelled given helpers (code ++ toString n) := by
  have hnumber : Spells given helpers [.constant (.int n)] (toString n) :=
    ⟨by simp [spell, Chunk.code]; rfl, by simp, fun helper hcall =>
      absurd hcall (not_infix_of_holdsNoCall helper rfl)⟩
  exact ⟨_, (spells_own h).append hnumber (by simp [frames, frame, closes, isCallChar])⟩

theorem gap (left : String) (hleft : callsNothing left) (ha : given a)
    (h : Spelled given helpers code) : Spelled given helpers (left ++ a ++ code) := by
  obtain ⟨chunks, hchunks⟩ := h
  have hgap : Spells given helpers [.given a] a :=
    ⟨by simp [spell, Chunk.code], by simp [ha], fun helper hcall =>
      absurd hcall (not_infix_of_holdsNoCall helper rfl)⟩
  refine ⟨_, ((spells_own hleft).append hgap ?_).append hchunks ?_⟩
  · simp [frames, frame, closes, isCallChar]
  · simp [frames, frame, opens, isCallChar]

theorem start (left : String) (hleft : isStart left) (h : Spelled given helpers code) :
    Spelled given helpers (left ++ code) := by
  obtain ⟨chunks, hchunks⟩ := h
  obtain ⟨hopens, hcalls⟩ := Bool.and_eq_true_iff.mp hleft
  refine ⟨_, (spells_own hcalls).append hchunks ?_⟩
  simp [frames, frame, hopens]

theorem stop (h : Spelled given helpers code) (right : String) (hright : isEnd right) :
    Spelled given helpers (code ++ right) := by
  obtain ⟨chunks, hchunks⟩ := h
  obtain ⟨hcloses, hcalls⟩ := Bool.and_eq_true_iff.mp hright
  refine ⟨_, hchunks.append (spells_own hcalls) ?_⟩
  simp [frames, frame, hcloses]

theorem seam (ha : Spelled given helpers a) (middle : String) (hmiddle : isSeam middle)
    (hb : Spelled given helpers b) : Spelled given helpers (a ++ middle ++ b) := by
  obtain ⟨left, hleft⟩ := ha
  obtain ⟨right, hright⟩ := hb
  simp only [isSeam, isStart, isEnd, Bool.and_eq_true] at hmiddle
  obtain ⟨⟨hne, hopens, hcalls⟩, hcloses, -⟩ := hmiddle
  refine ⟨_, (hleft.append (spells_own hcalls) ?_).append hright ?_⟩
  · simp [frames, frame, hcloses]
  · have hlast : (frames left ++ middle.toList).getLast? = middle.toList.getLast? := by
      rw [getLast?_append_of_ne_nil]
      simpa using hne
    simp only [frames, flatMap_append, flatMap_singleton, frame, opens] at hlast hopens ⊢
    rw [hlast, hopens]
    rfl

theorem intercalate (middle : String) (hmiddle : isSeam middle) {codes : List String}
    (h : ∀ code ∈ codes, Spelled given helpers code) :
    Spelled given helpers (middle.intercalate codes) := by
  induction codes with
  | nil => exact own (show callsNothing "" from rfl)
  | cons code codes ih =>
    obtain ⟨hcode, hcodes⟩ := forall_mem_cons.mp h
    cases codes with
    | nil => simpa using hcode
    | cons next codes =>
      rw [String.intercalate_cons_cons]
      exact hcode.seam middle hmiddle (ih hcodes)

theorem call {helper : Helper} (hhelper : helper ∈ helpers) (h : Spelled given helpers code) :
    Spelled given helpers (helper.callText ++ code) := by
  obtain ⟨chunks, hchunks⟩ := h
  have hown : Spells given helpers [.own helper.callText] helper.callText := by
    refine ⟨by simp [spell, Chunk.code], by simp, fun other hcall => ?_⟩
    have hwithin : other.callText.toList <:+: helper.callText.toList := by
      simpa [frames, frame] using hcall
    rwa [Helper.eq_of_infix hwithin]
  have hopens : opens helper.callText.toList := by cases helper <;> rfl
  refine ⟨_, hown.append hchunks ?_⟩
  simp [frames, frame, hopens]

end Spelled

/-! ## Attributes -/

/-- The value is a constant, or code that can be taken apart. -/
def Folded.IsSpelled (given : String → Prop) (helpers : List Helper) : Folded → Prop
  | .constant _ => True
  | .dynamic source => Spelled given helpers source

namespace AttributeSetting

variable {env : AttributeSetting} {parts : List String} {attributes : List Attribute}

/-- Helpers are reached as in a program that has copies of them. -/
def CallsCopies (env : AttributeSetting) : Prop := ∀ h, env.reach h ++ "(" = h.callText

/-- A part of the code of attributes. In the code for markup, a literal can take another one, and
what ends with a quote is a literal. -/
def IsPart (env : AttributeSetting) (given : String → Prop) (helpers : List Helper)
    (part : String) : Prop :=
  match env.form with
  | .html => (∃ text, part = Text.Quoted.script text) ∨
      Spelled given helpers part ∧ part.endsWith "\"" = false
  | .object => Spelled given helpers part

theorem IsPart.spelled {part : String} (h : env.IsPart given helpers part) :
    Spelled given helpers part := by
  unfold IsPart at h
  split at h
  · rcases h with ⟨text, rfl⟩ | ⟨h, -⟩
    · exact .literal text
    · exact h
  · exact h

theorem isPart_addLiteral (hform : env.form = .html) (text : String)
    (hparts : ∀ part ∈ parts, env.IsPart given helpers part) :
    ∀ part ∈ addLiteral (Text.Quoted.script text) parts, env.IsPart given helpers part := by
  have hliteral (t : String) : env.IsPart given helpers (Text.Quoted.script t) := by
    unfold IsPart
    rw [hform]
    exact .inl ⟨t, rfl⟩
  induction parts with
  | nil => exact forall_mem_singleton.mpr (hliteral text)
  | cons part parts ih =>
    obtain ⟨hpart, hparts⟩ := forall_mem_cons.mp hparts
    cases parts with
    | cons next parts => exact forall_mem_cons.mpr ⟨hpart, ih hparts⟩
    | nil =>
      rw [addLiteral]
      split
      · next hquote =>
        -- what ends with a quote is a literal
        unfold IsPart at hpart
        rw [hform] at hpart
        obtain ⟨before, rfl⟩ : ∃ t, part = Text.Quoted.script t :=
          hpart.resolve_right fun h => by simp [h.2] at hquote
        rw [script_join]
        exact forall_mem_singleton.mpr (hliteral (before ++ text))
      · exact forall_mem_cons.mpr ⟨hpart, forall_mem_singleton.mpr (hliteral text)⟩

theorem spelled_boolCode (b : Bool) : Spelled given helpers (boolCode b) := by
  cases b <;> exact .own rfl

theorem isPart_add (hcopies : env.CallsCopies) {key : String} {value : Folded} {escape : Bool}
    (hvalue : value.IsSpelled given helpers)
    (hparts : ∀ part ∈ parts, env.IsPart given helpers part)
    (hhelpers : (env.add key value escape parts).helpers ⊆ helpers) :
    ∀ part ∈ (env.add key value escape parts).code, env.IsPart given helpers part := by
  cases hform : env.form with
  | html =>
    cases value with
    | constant value =>
      simp only [add, hform]
      exact isPart_addLiteral hform _ hparts
    | dynamic source =>
      simp only [add, hform] at hhelpers ⊢
      refine forall_mem_append.mpr ⟨hparts, forall_mem_singleton.mpr ?_⟩
      unfold IsPart
      rw [hform]
      refine .inr ⟨?_, ?_⟩
      · rw [hcopies]
        exact ((((Spelled.literal key).call (hhelpers mem_cons_self)).seam ", " rfl hvalue).seam ", "
          rfl (spelled_boolCode _)).seam ", " rfl
          (spelled_boolCode _) |>.stop ")" rfl
      · rw [← Bool.not_eq_true, endsWith_quote_iff, String.toList_append]
        show ¬(_ ++ [')']).getLast? = _
        rw [getLast?_concat]
        decide
  | object =>
    have hpart {code : String} (h : Spelled given helpers code) :
        ∀ part ∈ parts ++ [code], env.IsPart given helpers part := by
      refine forall_mem_append.mpr ⟨hparts, forall_mem_singleton.mpr ?_⟩
      unfold IsPart
      rwa [hform]
    cases value with
    | constant value =>
      simp only [add, hform]
      exact hpart ((Spelled.literal key).seam ": " rfl (.constant _))
    | dynamic source =>
      cases escape with
      | false =>
        simp only [add, hform]
        exact hpart ((Spelled.literal key).seam ": " rfl hvalue)
      | true =>
        simp only [add, hform, if_true] at hhelpers ⊢
        refine hpart ?_
        have hcall := (Spelled.literal key).seam ": " rfl
          ((hvalue.call (hhelpers mem_cons_self)).stop ")" rfl)
        rw [← hcopies] at hcall
        simpa only [String.append_assoc] using hcall

theorem isSpelled_foldValue (hcopies : env.CallsCopies) {a : Attribute} (hgiven : given a.value.source)
    (hhelpers : (env.foldValue a).helpers ⊆ helpers) :
    (env.foldValue a).code.IsSpelled given helpers := by
  unfold foldValue foldStyle fold at hhelpers ⊢
  split
  · next hstyle =>
    rw [if_pos hstyle] at hhelpers
    split
    · trivial
    · next hnone =>
      rw [hnone] at hhelpers
      show Spelled given helpers _
      rw [hcopies]
      exact ((Spelled.of_given hgiven).call (hhelpers mem_cons_self)).stop ")" rfl
  · split
    · trivial
    · exact Spelled.of_given hgiven

theorem subset_addOthers (attributes : List Attribute) (acc : Coded (List String)) :
    acc.helpers ⊆ (env.addOthers attributes acc).helpers := by
  induction attributes generalizing acc with
  | nil => exact Subset.refl _
  | cons a attributes ih => exact Subset.trans (subset_append_left ..) (ih (env.addOther a acc))

theorem isPart_addOthers (hcopies : env.CallsCopies)
    (hgiven : ∀ a ∈ attributes, given a.value.source) {acc : Coded (List String)}
    (hacc : ∀ part ∈ acc.code, env.IsPart given helpers part)
    (hhelpers : (env.addOthers attributes acc).helpers ⊆ helpers) :
    ∀ part ∈ (env.addOthers attributes acc).code, env.IsPart given helpers part := by
  induction attributes generalizing acc with
  | nil => exact hacc
  | cons a attributes ih =>
    obtain ⟨ha, hgiven⟩ := forall_mem_cons.mp hgiven
    refine ih hgiven ?_ hhelpers
    have hnext := Subset.trans (subset_addOthers attributes (env.addOther a acc)) hhelpers
    obtain ⟨-, hmore⟩ := append_subset.mp hnext
    obtain ⟨hfolded, hadded⟩ := append_subset.mp hmore
    exact isPart_add hcopies (isSpelled_foldValue hcopies ha hfolded) hacc hadded

theorem isPart_classParts (hcopies : env.CallsCopies)
    (hgiven : ∀ a ∈ attributes, given a.value.source)
    (hhelpers : (env.classParts attributes).helpers ⊆ helpers) :
    ∀ part ∈ (env.classParts attributes).code, env.IsPart given helpers part := by
  unfold classParts at hhelpers ⊢
  split
  · exact fun part hpart => absurd hpart not_mem_nil
  next hsome =>
  rw [if_neg hsome] at hhelpers
  split
  · next values hvalues =>
    rw [hvalues] at hhelpers
    exact isPart_add hcopies trivial (fun part hpart => absurd hpart not_mem_nil) hhelpers
  · next hnone =>
    rw [hnone] at hhelpers
    obtain ⟨hclasses, hadded⟩ := cons_subset.mp hhelpers
    refine isPart_add hcopies ?_ (fun part hpart => absurd hpart not_mem_nil) hadded
    have hitems : ∀ code ∈ (attributes.map env.classItem).map (·.1), Spelled given helpers code := by
      intro code hcode
      obtain ⟨item, hitem, rfl⟩ := mem_map.mp hcode
      obtain ⟨a, ha, rfl⟩ := mem_map.mp hitem
      unfold classItem
      split
      · exact .constant _
      · exact .of_given (hgiven a ha)
    show Spelled given helpers _
    rw [show "([" = "(" ++ "[" from rfl, ← String.append_assoc, hcopies]
    have hlist := (Spelled.intercalate "," rfl hitems).start "[" rfl
    have hcall := ((hlist.call hclasses).seam "], " rfl
      (.constant (.array ((attributes.map env.classItem).map fun item => .bool item.2)))).stop ")"
      rfl
    simpa only [String.append_assoc] using hcall

theorem spelled_code (hcopies : env.CallsCopies) (hgiven : ∀ a ∈ attributes, given a.value.source)
    (hhelpers : (env.code attributes).helpers ⊆ helpers) :
    Spelled given helpers (env.code attributes).code := by
  have hnoted : (env.code attributes).helpers =
      (env.addOthers (attributes.filter fun a => a.name != "class") { code := [] }).helpers ++
        (env.classParts (attributes.filter fun a => a.name == "class")).helpers := by
    unfold code
    cases env.form <;> rfl
  rw [hnoted] at hhelpers
  obtain ⟨hothers, hclasses⟩ := append_subset.mp hhelpers
  have hsources : ∀ part ∈ (env.classParts (attributes.filter fun a => a.name == "class")).code ++
      (env.addOthers (attributes.filter fun a => a.name != "class") { code := [] }).code,
      Spelled given helpers part := by
    refine forall_mem_append.mpr ⟨fun part hpart => ?_, fun part hpart => ?_⟩
    · exact (isPart_classParts hcopies (fun a ha => hgiven a (mem_of_mem_filter ha)) hclasses part
        hpart).spelled
    · exact (isPart_addOthers hcopies (fun a ha => hgiven a (mem_of_mem_filter ha))
        (fun part hpart => absurd hpart not_mem_nil) hothers part hpart).spelled
  unfold code
  dsimp only
  cases env.form with
  | html =>
    dsimp only
    split
    · exact .own rfl
    · exact .intercalate "+" rfl hsources
  | object =>
    exact ((Spelled.intercalate "," rfl hsources).start "\x7b"
      rfl).stop "\x7d" rfl

/-! ### Helpers of attributes -/

theorem isInternal_add {key : String} {value : Folded} {escape : Bool} {h : Helper}
    (hmem : h ∈ (env.add key value escape parts).helpers) : h.isInternal = false := by
  unfold add at hmem
  split at hmem
  · cases hmem
  · cases hmem
  · rw [mem_singleton.mp hmem]
    rfl
  · split at hmem
    · rw [mem_singleton.mp hmem]
      rfl
    · cases hmem

theorem isInternal_foldValue {a : Attribute} {h : Helper} (hmem : h ∈ (env.foldValue a).helpers) :
    h.isInternal = false := by
  unfold foldValue foldStyle at hmem
  split at hmem
  · split at hmem
    · cases hmem
    · rw [mem_singleton.mp hmem]
      rfl
  · cases hmem

/-- **The code of attributes** calls no helper that is for other helpers only. -/
theorem isInternal_code {h : Helper} (hmem : h ∈ (env.code attributes).helpers) :
    h.isInternal = false := by
  have hothers (attributes : List Attribute) (acc : Coded (List String))
      (hacc : ∀ h ∈ acc.helpers, h.isInternal = false) :
      ∀ h ∈ (env.addOthers attributes acc).helpers, h.isInternal = false := by
    induction attributes generalizing acc with
    | nil => exact hacc
    | cons a attributes ih =>
      refine ih _ (forall_mem_append.mpr ⟨hacc, forall_mem_append.mpr ⟨?_, ?_⟩⟩)
      · exact fun h => isInternal_foldValue
      · exact fun h => isInternal_add
  have hnoted : (env.code attributes).helpers =
      (env.addOthers (attributes.filter fun a => a.name != "class") { code := [] }).helpers ++
        (env.classParts (attributes.filter fun a => a.name == "class")).helpers := by
    unfold code
    cases env.form <;> rfl
  rw [hnoted] at hmem
  rcases mem_append.mp hmem with hmem | hmem
  · exact hothers _ _ (fun h hh => absurd hh not_mem_nil) h hmem
  · unfold classParts at hmem
    split at hmem
    · cases hmem
    · split at hmem
      · exact isInternal_add hmem
      · rcases mem_cons.mp hmem with rfl | hmem
        · rfl
        · exact isInternal_add hmem

end AttributeSetting
end Program
end PugTemplate
