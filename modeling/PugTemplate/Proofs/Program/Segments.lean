import PugTemplate.Program.Output
/-!
# Statements as lists of segments

A statement that writes adds up segments: texts and the values of expressions. `Output` keeps the
text of its last statement, from which the quotes at both ends are left out, and puts every statement
together anew. Here the segments are kept instead, and their code is made of them at the end. The two
agree (`Output.lines_eq`), so that what is shown of segments holds of the code.
-/

namespace PugTemplate

open List
namespace Program

/-- A part of a statement that writes. -/
inductive Segment where
  | text (text : String)
  | code (source : String)
  deriving DecidableEq, Repr, Inhabited

def Segment.operand : Segment → String
  | .text content => Text.Quoted.script content
  | .code source => "(" ++ source ++ ")"

inductive Statement where
  | raw (code : String)
  /-- Writes segments, of which the last one comes first. -/
  | write (segments : List Segment)
  deriving DecidableEq, Repr, Inhabited

namespace Statement

/-- The operands of segments, of which the last one comes first. -/
def operands (segments : List Segment) : String :=
  String.intercalate " + " (segments.reverse.map Segment.operand)

/-- The code that writes segments, of which the last one comes first. Operands that end with an
expression are put in parentheses. -/
def writeCode (segments : List Segment) : String :=
  match segments with
  | .code _ :: _ :: _ => "pug_html = pug_html + (" ++ operands segments ++ ");"
  | _ => "pug_html = pug_html + " ++ operands segments ++ ";"

def code : Statement → String
  | .raw code => code
  | .write segments => writeCode segments

def addText (text : String) : List Segment → List Segment
  | .text before :: rest => .text (before ++ text) :: rest
  | segments => .text text :: segments

end Statement

/-- Statements, of which the last one comes first. -/
abbrev Segmented := List Statement

namespace Segmented

def isOpen (segments : List Segment) : Bool := segments.length ≤ maxJoins

def addText (out : Segmented) (text : String) : Segmented :=
  match out with
  | .write segments :: rest =>
    if isOpen segments then .write (Statement.addText text segments) :: rest
    else .write [.text text] :: out
  | _ => .write [.text text] :: out

def addExpression (out : Segmented) (source : String) : Segmented :=
  match out with
  | .write segments :: rest =>
    if isOpen segments then .write (.code source :: segments) :: rest
    else .write [.code source] :: out
  | _ => .write [.code source] :: out

def addStatement (out : Segmented) (code : String) : Segmented := .raw code :: out

def add (out : Segmented) : Write → Segmented
  | .text text => out.addText text
  | .expression source => out.addExpression source
  | .choice subject => out.addStatement (choiceCode subject)
  | .branch value => out.addStatement (branchCode value)
  | .statement code => out.addStatement code

def ofWrites (writes : List Write) : Segmented := writes.foldl add []

def lines (out : Segmented) : List String := out.reverse.map Statement.code

def code (out : Segmented) : String := String.intercalate "\n" out.lines

end Segmented

/-! ## Literals -/

theorem script_eq (text : String) : Text.Quoted.script text = "\"" ++ Output.inner text ++ "\"" := by
  rw [← String.toList_inj]
  simp [Output.inner, Text.Quoted.script, Text.Quoted.quote]

theorem Output.inner_append (a b : String) : inner (a ++ b) = inner a ++ inner b := by
  rw [← String.toList_inj]
  simp [inner, Text.Quoted.script, Text.Quoted.quote]

namespace Statement

theorem operands_singleton (s : Segment) : operands [s] = s.operand := String.intercalate_singleton

theorem operands_cons (s : Segment) {segments : List Segment} (h : segments ≠ []) :
    operands (s :: segments) = operands segments ++ " + " ++ s.operand := by
  rw [operands, reverse_cons, map_append,
    String.intercalate_append_of_ne_nil (by simpa using h) (by simp)]
  rw [map_singleton, String.intercalate_singleton]
  rfl

/-- What stands in front of the last segment. -/
def lead (segments : List Segment) : String :=
  if segments = [] then "" else operands segments ++ " + "

theorem operands_eq_lead (s : Segment) (segments : List Segment) :
    operands (s :: segments) = lead segments ++ s.operand := by
  unfold lead
  split
  · next h => rw [h, operands_singleton, String.empty_append]
  · next h => exact operands_cons s h

end Statement

/-! ## The last statement -/

def Segment.kind : Segment → Buffered
  | .text _ => .text
  | .code _ => .code

def Buffered.closing : Buffered → String
  | .text => "\""
  | .code => ""

namespace Output

open Statement

variable {out : Output} {spec : Segmented} {segments : List Segment} {s : Segment}

/-- **What is known of the last statement**, if that writes segments: the operands are those of the
segments up to the last quote, the kind is that of the last segment, and all segments but the first
one have been added. -/
structure Holds (out : Output) (s : Segment) (segments : List Segment) : Prop where
  operands : out.start ++ out.buffered ++ out.lastKind.closing = Statement.operands (s :: segments)
  lastKind : out.lastKind = s.kind
  joins : out.joins = segments.length

/-- **The output refines segments.** It has their statements. If the last one of them writes, the
output knows its segments; and otherwise it does not take the last one for a write. -/
structure Refines (out : Output) (spec : Segmented) : Prop where
  statements : out.statements = spec.map Statement.code
  writtenAt : ∀ n ∈ out.writtenAt, n ≤ spec.length
  last : match spec with
    | .write (s :: segments) :: _ => out.writtenAt = some spec.length ∧ out.Holds s segments
    | .write [] :: _ => False
    | _ => out.writtenAt ≠ some spec.length

theorem refines_empty : Refines {} [] := ⟨rfl, nofun, nofun⟩

theorem Refines.length (h : out.Refines spec) : out.statements.length = spec.length := by
  rw [h.statements, length_map]

theorem Refines.addStatement (h : out.Refines spec) (code : String) :
    (out.addStatement code).Refines (spec.addStatement code) where
  statements := by rw [Output.addStatement, h.statements]; rfl
  writtenAt n hn := Nat.le_succ_of_le (h.writtenAt n hn)
  last hn := Nat.not_succ_le_self _ (h.writtenAt _ hn)

/-! ## New statements -/

theorem Refines.start (h : out.Refines spec) (s : Segment) {buffered start : String}
    (hoperand : start ++ buffered ++ s.kind.closing = s.operand) :
    Refines { statements := (Statement.write [s]).code :: out.statements
              writtenAt := some (out.statements.length + 1)
              buffered, start, lastKind := s.kind, joins := 0 } (.write [s] :: spec) where
  statements := by rw [h.statements, map_cons]
  writtenAt := by simp [h.length]
  last := by
    refine ⟨by rw [h.length, length_cons], ?_, rfl, rfl⟩
    rw [operands_singleton]
    exact hoperand

/-! ## Statements that go on -/

theorem Refines.replace (h : out.Refines (.write (s :: segments) :: spec)) {s' : Segment}
    {segments' : List Segment} {next : Output} {statement : String}
    (hstatements : next.statements = out.statements) (hwritten : next.writtenAt = out.writtenAt)
    (hstatement : statement = writeCode (s' :: segments')) (hholds : next.Holds s' segments') :
    (next.replaceLast statement).Refines (.write (s' :: segments') :: spec) := by
  have hlast := h.last
  have hall := hstatements.trans h.statements
  unfold replaceLast
  rw [hall, map_cons]
  exact ⟨by rw [map_cons, hstatement]; rfl, fun n hn => h.writtenAt n (hwritten ▸ hn),
    hwritten.trans hlast.1, hholds.operands, hholds.lastKind, hholds.joins⟩

theorem canMerge_write (h : out.Refines (.write (s :: segments) :: spec)) :
    out.canMerge = Segmented.isOpen (s :: segments) := by
  have hlast := h.last
  rw [canMerge, h.length, hlast.1, hlast.2.joins, beq_self_eq_true, Bool.true_and]
  rfl

theorem canMerge_eq_false (h : out.writtenAt ≠ some out.statements.length) :
    out.canMerge = false := by
  simp [canMerge, h]

/-- A text behind segments. It becomes a part of the last one, if that is a text. -/
theorem Refines.mergeText (h : out.Refines (.write (s :: segments) :: spec))
    (hopen : Segmented.isOpen (s :: segments)) (text : String) :
    (out.addText text).Refines (.write (Statement.addText text (s :: segments)) :: spec) := by
  have hholds := h.last.2
  have hoperands := hholds.operands
  rw [addText, if_pos ((canMerge_write h).trans hopen), hholds.lastKind]
  rw [hholds.lastKind] at hoperands
  cases s with
  | text before =>
    -- the quote that is still to come is the one behind the text before
    have hpending : out.start ++ out.buffered = lead segments ++ "\"" ++ inner before := by
      rw [operands_eq_lead, Segment.operand, script_eq] at hoperands
      simpa [Segment.kind, Buffered.closing, ← String.append_assoc] using hoperands
    have hnext : out.start ++ (out.buffered ++ inner text) ++ "\"" =
        operands (.text (before ++ text) :: segments) := by
      rw [operands_eq_lead, Segment.operand, script_eq, inner_append, ← String.append_assoc, hpending]
      simp only [String.append_assoc]
    refine h.replace rfl rfl ?_ ⟨hnext, rfl, hholds.joins⟩
    show _ = "pug_html = pug_html + " ++ operands (.text (before ++ text) :: segments) ++ ";"
    rw [← hnext]
    simp [Segment.kind, String.append_assoc]
  | code source =>
    have hnext : out.start ++ (out.buffered ++ " + \"" ++ inner text) ++ "\"" =
        operands (.text text :: .code source :: segments) := by
      rw [operands_cons _ (cons_ne_nil _ _), Segment.operand, script_eq, ← hoperands,
        show " + \"" = " + " ++ "\"" from rfl]
      simp only [Segment.kind, Buffered.closing, String.append_assoc, String.empty_append]
    refine h.replace rfl rfl ?_ ⟨hnext, rfl, congrArg (· + 1) hholds.joins⟩
    show _ = "pug_html = pug_html + " ++ operands (.text text :: .code source :: segments) ++ ";"
    rw [← hnext]
    simp [Segment.kind, String.append_assoc]

theorem Refines.mergeExpression (h : out.Refines (.write (s :: segments) :: spec))
    (hopen : Segmented.isOpen (s :: segments)) (source : String) :
    (out.addExpression source).Refines (.write (.code source :: s :: segments) :: spec) := by
  have hholds := h.last.2
  have hoperands := hholds.operands
  rw [addExpression, if_pos ((canMerge_write h).trans hopen)]
  have hclosed : out.start ++ (if out.lastKind == .text then out.buffered ++ "\"" else out.buffered) =
      operands (s :: segments) := by
    rw [← hoperands]
    cases out.lastKind <;> simp [Buffered.closing, String.append_assoc]
  have hnext : out.start ++ ((if out.lastKind == .text then out.buffered ++ "\"" else out.buffered) ++
      (" + (" ++ source ++ ")")) = operands (.code source :: s :: segments) := by
    rw [operands_cons _ (cons_ne_nil _ _), ← hclosed, Segment.operand]
    simp only [String.append_assoc]
    rfl
  refine h.replace rfl rfl ?_ ⟨?_, rfl, congrArg (· + 1) hholds.joins⟩
  · show _ = "pug_html = pug_html + (" ++ operands (.code source :: s :: segments) ++ ");"
    rw [← hnext]
    simp only [String.append_assoc]
  · rw [← hnext]
    simp [Buffered.closing]

/-! ## Writes -/

theorem Refines.startText (h : out.Refines spec) (hfull : out.canMerge = false) (text : String) :
    (out.addText text).Refines (.write [.text text] :: spec) := by
  have hstart := h.start (.text text) (script_eq text).symm
  have hcode : (Statement.write [.text text]).code =
      "pug_html = pug_html + \"" ++ inner text ++ "\";" := by
    show "pug_html = pug_html + " ++ operands [.text text] ++ ";" = _
    rw [operands_singleton, Segment.operand, script_eq, show "\";" = "\"" ++ ";" from rfl,
      show "pug_html = pug_html + \"" = "pug_html = pug_html + " ++ "\"" from rfl]
    simp only [String.append_assoc]
  rw [addText, hfull]
  rwa [hcode] at hstart

theorem Refines.startExpression (h : out.Refines spec) (hfull : out.canMerge = false)
    (source : String) : (out.addExpression source).Refines (.write [.code source] :: spec) := by
  have hoperand : "" ++ ("(" ++ source ++ ")") ++ "" = (Segment.code source).operand := by
    rw [String.empty_append, String.append_empty, Segment.operand]
  have hstart := h.start (.code source) hoperand
  have hcode : (Statement.write [.code source]).code = "pug_html = pug_html + (" ++ source ++ ");" := by
    show "pug_html = pug_html + " ++ operands [.code source] ++ ";" = _
    rw [operands_singleton, Segment.operand, show ");" = ")" ++ ";" from rfl,
      show "pug_html = pug_html + (" = "pug_html = pug_html + " ++ "(" from rfl]
    simp only [String.append_assoc]
  rw [addExpression, hfull]
  rwa [hcode] at hstart

theorem Refines.add (h : out.Refines spec) (w : Write) : (out.add w).Refines (spec.add w) := by
  cases w with
  | choice subject | branch value | statement code => exact h.addStatement _
  | text text =>
    match spec, h with
    | [], h => exact h.startText (canMerge_eq_false (h.length ▸ h.last)) text
    | .raw code :: spec, h => exact h.startText (canMerge_eq_false (h.length ▸ h.last)) text
    | .write [] :: spec, h => exact h.last.elim
    | .write (s :: segments) :: spec, h =>
      show (out.addText text).Refines (if _ then _ else _)
      split
      · next hopen => exact h.mergeText hopen text
      · next hfull =>
        exact h.startText ((canMerge_write h).trans (eq_false_of_ne_true hfull)) text
  | expression source =>
    match spec, h with
    | [], h => exact h.startExpression (canMerge_eq_false (h.length ▸ h.last)) source
    | .raw code :: spec, h => exact h.startExpression (canMerge_eq_false (h.length ▸ h.last)) source
    | .write [] :: spec, h => exact h.last.elim
    | .write (s :: segments) :: spec, h =>
      show (out.addExpression source).Refines (if _ then _ else _)
      split
      · next hopen => exact h.mergeExpression hopen source
      · next hfull =>
        exact h.startExpression ((canMerge_write h).trans (eq_false_of_ne_true hfull)) source

theorem refines_ofWrites (writes : List Write) :
    (ofWrites writes).Refines (Segmented.ofWrites writes) := by
  have hfold {out : Output} {spec : Segmented} (h : out.Refines spec) :
      (writes.foldl add out).Refines (writes.foldl Segmented.add spec) := by
    induction writes generalizing out spec with
    | nil => exact h
    | cons w writes ih => exact ih (h.add w)
  exact hfold refines_empty

theorem lines_eq (writes : List Write) :
    (ofWrites writes).lines = (Segmented.ofWrites writes).lines := by
  rw [lines, (refines_ofWrites writes).statements, ← map_reverse]
  rfl

theorem code_eq (writes : List Write) :
    (ofWrites writes).code = (Segmented.ofWrites writes).code :=
  congrArg (String.intercalate "\n") (lines_eq writes)

end Output
end Program
end PugTemplate
