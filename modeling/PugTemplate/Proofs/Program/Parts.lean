import PugTemplate.Proofs.Program.Relations
/-!
# What the parts of nodes emit

Only a few kinds of nodes start choices and branches, or define and call mixins. Every other part of
a program is made of texts, expressions and other statements, whatever the tree and the options are.
-/

namespace PugTemplate
namespace Program

open Emit WriterSetting

def Write.startsChoice : Write → Bool
  | .choice _ => true
  | _ => false

/-- A statement that defines or calls a mixin starts like this one. -/
def isMixinCode (code : String) : Bool := "pug_mixins[".toList.isPrefixOf code.toList

/-- A write that starts neither a choice nor a branch, and is not about mixins. -/
def Write.isQuiet : Write → Bool
  | .text _ => true
  | .expression _ => true
  | .choice _ => false
  | .branch _ => false
  | .statement code => !isMixinCode code

def Quiet {α : Type} (x : Emit α) : Prop := Only (fun w => w.isQuiet = true) x

namespace Quiet

variable {α β : Type}

theorem pure (a : α) : Quiet (Pure.pure a : Emit α) := Only.pure a

theorem bind {x : Emit α} {f : α → Emit β} (hx : Quiet x) (hf : ∀ a, Quiet (f a)) :
    Quiet (x >>= f) := Only.bind hx hf

theorem state : Quiet Emit.state := Only.state

theorem change (g : WriterState → WriterState) : Quiet (Emit.change g) := Only.change g

theorem fail (d : Diagnostic) : Quiet (Emit.fail d : Emit α) := Only.fail d

theorem onlyIf {x : Emit Unit} (c : Bool) (hx : Quiet x) : Quiet (Emit.onlyIf c x) :=
  Only.onlyIf c hx

theorem text (c : String) : Quiet (Emit.text c) := Only.write rfl

theorem value (source : String) : Quiet (Emit.write (.expression source)) := Only.write rfl

theorem statement {code : String} (h : isMixinCode code = false) : Quiet (Emit.statement code) :=
  Only.write (by simp [Write.isQuiet, h])

theorem ite {c : Prop} [Decidable c] {x y : Emit α} (hx : Quiet x) (hy : Quiet y) :
    Quiet (if c then x else y) := by
  split
  · exact hx
  · exact hy

end Quiet

/-- The text differs from the start of a statement about mixins, at a place that both have. -/
def startsOtherwise (code : String) : Bool :=
  ("pug_mixins[".toList.zip code.toList).any fun p => p.1 != p.2

theorem startsOtherwise_append {code : String} (more : String) (h : startsOtherwise code) :
    startsOtherwise (code ++ more) := by
  have hz (a b c : List Char) (h : ((a.zip b).any fun p => p.1 != p.2) = true) :
      ((a.zip (b ++ c)).any fun p => p.1 != p.2) = true := by
    induction a generalizing b with
    | nil => simp at h
    | cons x a ih =>
      cases b with
      | nil => simp at h
      | cons y b =>
        simp only [List.cons_append, List.zip_cons_cons, List.any_cons, Bool.or_eq_true] at h ⊢
        exact h.imp id (ih b)
  rw [startsOtherwise, String.toList_append]
  exact hz _ _ _ h

theorem isMixinCode_eq_false {code : String} (h : startsOtherwise code) :
    isMixinCode code = false := by
  have hl (a b : List Char) (h : ((a.zip b).any fun p => p.1 != p.2) = true) :
      a.isPrefixOf b = false := by
    induction a generalizing b with
    | nil => simp at h
    | cons x a ih =>
      cases b with
      | nil => simp at h
      | cons y b =>
        simp only [List.zip_cons_cons, List.any_cons, Bool.or_eq_true, bne_iff_ne] at h
        rcases h with hn | h
        · simp [List.isPrefixOf, hn]
        · simp [List.isPrefixOf, ih b h]
  exact hl _ _ h

section Parts

variable (env : WriterSetting)

theorem quiet_emitStatements {codes : List String}
    (hc : ∀ code ∈ codes, isMixinCode code = false) : Quiet (emitStatements codes) := by
  intro s a ws t h w hw
  obtain ⟨-, rfl, -⟩ := h
  obtain ⟨code, hco, rfl⟩ := List.mem_map.mp hw
  simp [Write.isQuiet, hc code hco]

/-! ## Single actions -/

theorem quiet_indent (more : Nat) (newline : Bool) : Quiet (env.indent more newline) :=
  .bind (.text _) fun _ => .onlyIf _ (.statement (by decide))

theorem relates_quiet : RelatesTags Eq fun _ x _ => Quiet x where
  pure := .pure
  bind := .bind
  withState h := .bind .state fun s => h s [] 0
  text := .text
  value := .value
  doctypeWritten := .change _
  tagWritten := .change _
  evaluator hen := hen ▸ rfl
  helper _ _ _ := .bind (.onlyIf _ (.change _)) fun _ => .pure _
  attributes _ _ _ := .bind .state fun _ => .bind (.onlyIf _ (.change _)) fun _ => .pure _
  indent _ more newline _ := .onlyIf _ (quiet_indent _ more newline)
  choose _ := .change _
  keepSpace _ := .change _

theorem quiet_newline (more : Nat) : Quiet (env.newline more) := relates_quiet.newline rfl more

theorem quiet_emitDebugLine (node : Node) : Quiet (emitDebugLine env node) := by
  refine .onlyIf _ (.statement ?_)
  apply isMixinCode_eq_false
  repeat apply startsOtherwise_append
  decide

/-! ## Tags and code -/

theorem quiet_doctype (name : String) : Quiet (WriterSetting.doctype name) :=
  relates_quiet.doctype name

theorem quiet_emitStartTag (head : TagHead) : Quiet (emitStartTag env head) :=
  relates_quiet.emitStartTag rfl head

theorem quiet_emitClosed (head : TagHead) (content : List Node) : Quiet (emitClosed head content) :=
  .bind .state fun _ => .bind (.text _) fun _ => .ite (.fail _) (.pure _)

theorem quiet_emitEndTag (head : TagHead) (body : Block) : Quiet (emitEndTag env head body) :=
  relates_quiet.emitEndTag rfl head body

theorem quiet_emitValue (head : CodeHead) : Quiet (emitValue env head) :=
  relates_quiet.emitValue rfl head

/-! ## Mixins and loops -/

theorem quiet_emitCallEnd (arguments : String) (attributes : List Attribute)
    (spreads : List Spread) : Quiet (emitCallEnd env arguments attributes spreads) := by
  have ha (code : String) : Quiet (statement ("attributes: " ++ code)) :=
    .statement (isMixinCode_eq_false (startsOtherwise_append _ (by decide)))
  have hen : Quiet (statement
      (if arguments.isEmpty then "\x7d);" else "\x7d, " ++ arguments ++ ");")) := by
    refine .statement ?_
    split
    · decide
    · exact isMixinCode_eq_false (startsOtherwise_append _ (startsOtherwise_append _ (by decide)))
  refine .ite (.bind (relates_quiet.spreadAttributes rfl _ _) fun _ => ?_) (.ite ?_ hen)
  · exact .bind (ha _) fun _ => hen
  · exact .bind (relates_quiet.attributes rfl _ _) fun _ => .bind (ha _) fun _ => hen

theorem quiet_loopIndex (key : Option String) : Quiet (loopIndex key) :=
  .bind .state fun _ => .bind (.change _) fun _ => .pure _

end Parts

/-! ## Whole programs -/

section Generate

variable {parse : Script.Parser} {evaluator : Evaluator} {mixins : MixinUse} {options : Options}
  {root : Block}

theorem generate_of_error {d : Diagnostic}
    (h : emitTree { evaluator, mixins, options } root (startState options) = .error d) :
    generate parse evaluator mixins options root = .error d := by
  unfold generate
  rw [h]
  rfl

theorem generate_of_ok {ws : List Write} {s : WriterState}
    (h : emitTree { evaluator, mixins, options } root (startState options) = .ok ((), ws, s)) :
    generate parse evaluator mixins options root = .ok (assemble parse options ws s.helpers) := by
  unfold generate
  rw [h]
  rfl

end Generate

end Program
end PugTemplate
