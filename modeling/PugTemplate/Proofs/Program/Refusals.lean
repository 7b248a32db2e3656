import PugTemplate.Proofs.Node.Located
import PugTemplate.Proofs.Program.Relations
/-!
# What the writer refuses

The writer refuses a tree only because of a node: a tag without end tag that has content, a filter,
or another file. The diagnostic has the location of that node.
-/

namespace PugTemplate
namespace Program

open Emit WriterSetting

/-- Whatever the action refuses has a property. -/
def Refuses {α : Type} (E : Diagnostic → Prop) (x : Emit α) : Prop :=
  ∀ s d, x s = .error d → E d

namespace Refuses

variable {α β : Type} {E : Diagnostic → Prop}

theorem pure (a : α) : Refuses E (Pure.pure a : Emit α) := by
  intro s d h
  cases h

theorem bind {x : Emit α} {f : α → Emit β} (hx : Refuses E x) (hf : ∀ a, Refuses E (f a)) :
    Refuses E (x >>= f) := by
  intro s d h
  cases hr : x s with
  | error d' =>
    rw [bind_run_error hr] at h
    obtain rfl := Except.error.inj h
    exact hx s d' hr
  | ok r =>
    obtain ⟨a, ws, t⟩ := r
    rw [bind_run_ok hr] at h
    cases hn : f a t with
    | error d' =>
      rw [hn] at h
      obtain rfl := Except.error.inj h
      exact hf a t d' hn
    | ok r =>
      rw [hn] at h
      cases h

theorem write (w : Write) : Refuses E (Emit.write w) := by
  intro s d h
  cases h

theorem state : Refuses E Emit.state := by
  intro s d h
  cases h

theorem change (g : WriterState → WriterState) : Refuses E (Emit.change g) := by
  intro s d h
  cases h

theorem fail {d : Diagnostic} (hd : E d) : Refuses E (Emit.fail d : Emit α) := by
  intro s d' h
  cases h
  exact hd

theorem onlyIf {x : Emit Unit} (c : Bool) (hx : Refuses E x) : Refuses E (Emit.onlyIf c x) := by
  cases c with
  | true => exact hx
  | false => exact pure ()

theorem ite {c : Prop} [Decidable c] {x y : Emit α} (hx : Refuses E x) (hy : Refuses E y) :
    Refuses E (if c then x else y) := by
  split
  · exact hx
  · exact hy

theorem text (c : String) : Refuses E (Emit.text c) := write _

theorem statement (code : String) : Refuses E (Emit.statement code) := write _

end Refuses

/-! ## Trees -/

section Trees

variable {file : Option String} {place : Position → Prop}

theorem relates_refuses : RelatesTrees (Everywhere (Node.IsIn file place)) Eq Eq
    fun _ x _ => Refuses (fun d => d.PointsInto file place) x where
  pure := .pure
  bind := .bind
  withState h := .bind .state fun s => h s [] 0
  text := .text
  value _ := .write _
  doctypeWritten := .change _
  tagWritten := .change _
  evaluator hen := hen ▸ rfl
  helper _ _ _ := .bind (.onlyIf _ (.change _)) fun _ => .pure _
  attributes _ _ _ := .bind .state fun _ => .bind (.onlyIf _ (.change _)) fun _ => .pure _
  indent _ _ _ _ := .onlyIf _ (.bind (.text _) fun _ => .onlyIf _ (.statement _))
  choose _ := .change _
  keepSpace _ := .change _
  write := .write
  loop _ _ _ h := .bind (.bind .state fun _ => .bind (.change _) fun _ => .pure _) fun i => h i i rfl
  itemLoop _ _ := .statement _
  keyLoop _ _ := .statement _
  emitStatements _ _ _ := nofun
  emitClosed _ _ hn := .bind .state fun _ => .bind (.text _) fun _ =>
    .ite (.fail ⟨hn.here.file, nofun, hn.here.position⟩) (.pure _)
  unsupported _ _ hn := .fail ⟨hn.here.file, nofun, hn.here.position⟩
  children _ hn := hn.children
  mixins hen := hen ▸ rfl
  emitDebugLine _ _ := .onlyIf _ (.statement _)
  inFrame _ _ _ ha := .bind (.onlyIf _ (.statement _)) fun _ => .bind ha fun _ =>
    .onlyIf _ (.statement _)
  inTag hen := hen ▸ rfl
  inMixin hen := hen ▸ rfl
  inCall hen := hen ▸ rfl

theorem yields_generate {parse : Script.Parser} (evaluator : Evaluator) (mixins : MixinUse)
    (options : Options) {root : Block} (hr : Throughout (Node.IsIn file place) root.nodes) :
    Yields (generate parse evaluator mixins options root) (fun _ => True)
      fun d => d.PointsInto file place := by
  have ht : Refuses (fun d => d.PointsInto file place)
      (emitTree { evaluator, mixins, options } root) :=
    .bind (.onlyIf _ (.statement _)) fun _ => relates_refuses.block rfl root hr
  unfold generate
  cases hru : emitTree { evaluator, mixins, options } root (startState options) with
  | error d => exact ht _ d hru
  | ok r => trivial

end Trees
end Program
end PugTemplate
