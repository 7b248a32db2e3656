import Mathlib.Data.List.Chain
import Mathlib.Data.List.Forall2
import Mathlib.Data.List.Induction
import PugTemplate.Proofs.Program.Statements
/-!
# Runs of writes

The statements of a program cut its writes into pieces. A piece is a statement of its own, or a run of
texts and expressions that one statement adds to the result. A run ends in front of a statement of its
own, or when it has as many segments as a statement may have.
-/

namespace PugTemplate

open List
namespace Program

/-! ## Segments of a run -/

/-- The segments of writes behind a text: texts that stand next to each other are one. -/
def segmentsAfter (text : Option String) : List Write → List Segment
  | [] => text.toList.map .text
  | .text t :: ws => segmentsAfter (some (text.getD "" ++ t)) ws
  | .expression e :: ws => text.toList.map .text ++ .code e :: segmentsAfter none ws
  | _ :: ws => segmentsAfter text ws

def segments (ws : List Write) : List Segment := segmentsAfter none ws

/-- Adds a write to segments, of which the last one comes first. -/
def Write.addTo : Write → List Segment → List Segment
  | .text t, segs => Statement.addText t segs
  | .expression e, segs => .code e :: segs
  | _, segs => segs

theorem Write.addTo_append_code (w : Write) (e : String) (front back : List Segment) :
    w.addTo (front ++ .code e :: back) = w.addTo front ++ .code e :: back := by
  cases w with
  | text t =>
    cases front with
    | nil => rfl
    | cons s front => cases s <;> rfl
  | _ => rfl

theorem Write.length_addTo_le (w : Write) (segs : List Segment) :
    (w.addTo segs).length ≤ segs.length + 1 := by
  cases w with
  | text t =>
    cases segs with
    | nil => exact Nat.le_refl 1
    | cons s segs => cases s <;> simp [addTo, Statement.addText]
  | _ => simp [addTo]

theorem segmentsAfter_concat (text : Option String) (ws : List Write) (w : Write) :
    (segmentsAfter text (ws ++ [w])).reverse = w.addTo (segmentsAfter text ws).reverse := by
  induction ws generalizing text with
  | nil => cases text <;> cases w <;> simp [segmentsAfter, Write.addTo, Statement.addText]
  | cons v ws ih =>
    cases v with
    | expression e =>
      simp only [cons_append, segmentsAfter, reverse_append, reverse_cons, append_assoc, ih]
      exact (w.addTo_append_code ..).symm
    | _ => exact ih _

/-- A text or an expression goes to the last statement if that is open, and else starts one. -/
theorem add_of_line?_none {w : Write} (hw : w.line? = none) (out : Segmented) :
    out.add w = match out with
      | .write segs :: rest =>
        if Segmented.isOpen segs then .write (w.addTo segs) :: rest else .write (w.addTo []) :: out
      | _ => .write (w.addTo []) :: out := by
  cases w with
  | text t | expression e => rfl
  | _ => cases hw

/-! ## Pieces -/

/-- Writes that are no statements of their own. -/
def IsRun (ws : List Write) : Prop := ∀ w ∈ ws, w.line? = none

/-- A piece of the writes with its statement. -/
inductive Makes : List Write → Statement → Prop where
  | own {w : Write} {code : String} (h : w.line? = some code) : Makes [w] (.raw code)
  | run {ws : List Write} (h : IsRun ws) (hne : ws ≠ [])
      (hcap : (segments ws).length ≤ maxJoins + 1) : Makes ws (.write (segments ws).reverse)

/-- Two runs follow each other only if the first one is full. -/
def CutsAt (ws more : List Write) : Prop :=
  IsRun ws → IsRun more → (segments ws).length = maxJoins + 1

/-- The pieces of writes, the last one first, with their statements. -/
structure Cuts (ws : List Write) (pieces : List (List Write)) (out : Segmented) : Prop where
  all : pieces.reverse.flatten = ws
  makes : Forall₂ Makes pieces out
  cut : pieces.IsChain fun later earlier => CutsAt earlier later

variable {ws : List Write} {pieces : List (List Write)} {out : Segmented} {w : Write}

theorem not_isRun_own {code : String} (h : w.line? = some code) : ¬IsRun [w] :=
  fun hr => absurd (hr w mem_cons_self) (by simp [h])

theorem Cuts.start (h : Cuts ws pieces out) {s : Statement} (hw : Makes [w] s)
    (hc : ∀ last ∈ pieces.head?, CutsAt last [w]) :
    Cuts (ws ++ [w]) ([w] :: pieces) (s :: out) where
  all := by simp [h.all]
  makes := .cons hw h.makes
  cut := isChain_cons.mpr ⟨hc, h.cut⟩

theorem Cuts.extend {piece : List Write} {s t : Statement} (h : Cuts ws (piece :: pieces) (s :: out))
    (hr : IsRun piece) (hw : Makes (piece ++ [w]) t) :
    Cuts (ws ++ [w]) ((piece ++ [w]) :: pieces) (t :: out) where
  all := by simp [← h.all]
  makes := .cons hw (forall₂_cons.mp h.makes).2
  cut := by
    obtain ⟨hcu, hc⟩ := isChain_cons.mp h.cut
    exact isChain_cons.mpr ⟨fun earlier hm hea _ => hcu earlier hm hea hr, hc⟩

theorem Cuts.add (h : Cuts ws pieces out) (w : Write) :
    ∃ pieces, Cuts (ws ++ [w]) pieces (out.add w) := by
  cases hw : w.line? with
  | some code =>
    rw [Segmented.add_of_line? out hw]
    exact ⟨_, h.start (.own hw) fun _ _ _ hr => absurd hr (not_isRun_own hw)⟩
  | none =>
    have ho : Makes [w] (.write (w.addTo [])) := by
      have hs : w.addTo [] = (segments [w]).reverse := (segmentsAfter_concat none [] w).symm
      rw [hs]
      refine .run (by simpa [IsRun] using hw) (cons_ne_nil w []) ?_
      rw [← length_reverse, ← hs]
      exact Nat.le_trans (w.length_addTo_le []) (by decide)
    rw [add_of_line?_none hw]
    cases h.makes with
    | nil => exact ⟨_, h.start ho nofun⟩
    | @cons piece _ pieces out hl hre =>
      cases hl with
      | own how =>
        refine ⟨_, h.start ho fun last hm hr => ?_⟩
        cases hm
        exact absurd hr (not_isRun_own how)
      | run hr hn hc =>
        dsimp only
        split
        · next hop =>
          have hs : w.addTo (segments piece).reverse = (segments (piece ++ [w])).reverse :=
            (segmentsAfter_concat none piece w).symm
          refine ⟨_, h.extend hr ?_⟩
          rw [hs]
          refine .run (forall_mem_append.mpr ⟨hr, by simpa using hw⟩) (by simp) ?_
          rw [← length_reverse, ← hs]
          exact Nat.le_trans (w.length_addTo_le _) (Nat.succ_le_succ (of_decide_eq_true hop))
        · next hf =>
          refine ⟨_, h.start ho fun last hm _ _ => ?_⟩
          cases hm
          rw [Segmented.isOpen, length_reverse, decide_eq_true_eq] at hf
          omega

theorem cuts_ofWrites (ws : List Write) : ∃ pieces, Cuts ws pieces (Segmented.ofWrites ws) := by
  induction ws using reverseRecOn with
  | nil => exact ⟨[], rfl, .nil, .nil⟩
  | append_singleton ws w ih =>
    obtain ⟨pieces, h⟩ := ih
    rw [Segmented.ofWrites, foldl_append]
    exact h.add w

/-! ## Code -/

/-- The code of a piece: that of a statement of its own, or an assignment that adds up the operands of
the segments in order. The sum may stand in parentheses. -/
inductive Written : List Write → String → Prop where
  | own {w : Write} {code : String} (h : w.line? = some code) : Written [w] code
  | run {ws : List Write} (h : IsRun ws) (hne : ws ≠ [])
      (hcap : (segments ws).length ≤ maxJoins + 1) {sum left right : String}
      (hsum : sum = String.intercalate " + " ((segments ws).map Segment.operand))
      (hparens : left = "" ∧ right = "" ∨ left = "(" ∧ right = ")") :
      Written ws ("pug_html = pug_html + " ++ left ++ sum ++ right ++ ";")

theorem Makes.written {s : Statement} (h : Makes ws s) : Written ws s.code := by
  cases h with
  | own h => exact .own h
  | run h hn hc =>
    show Written ws (Statement.writeCode _)
    unfold Statement.writeCode Statement.operands
    rw [reverse_reverse]
    generalize hs : String.intercalate " + " ((segments ws).map Segment.operand) = sum
    split
    · rw [show "pug_html = pug_html + (" = "pug_html = pug_html + " ++ "(" from rfl,
        show ");" = ")" ++ ";" from rfl, ← String.append_assoc]
      exact .run h hn hc hs.symm (.inr ⟨rfl, rfl⟩)
    · have hp := Written.run h hn hc hs.symm (.inl ⟨rfl, rfl⟩)
      rwa [String.append_empty] at hp

/-- **The statements of writes.** The writes are cut into pieces with one statement each, in order. A
piece is a statement of its own, or a run of texts and expressions that has no more segments than a
statement may have; two runs follow each other only where the first one is full. -/
theorem code_ofWrites (ws : List Write) :
    ∃ (pieces : List (List Write)) (lines : List String),
      pieces.flatten = ws ∧ Forall₂ Written pieces lines ∧ pieces.IsChain CutsAt ∧
        (Output.ofWrites ws).code = String.intercalate "\n" lines := by
  obtain ⟨pieces, h⟩ := cuts_ofWrites ws
  refine ⟨pieces.reverse, _, h.all, ?_, isChain_reverse.mpr h.cut, Output.code_eq ws⟩
  rw [Segmented.lines, forall₂_map_right_iff, forall₂_reverse_iff]
  exact h.makes.imp fun _ _ => Makes.written

end Program
end PugTemplate
