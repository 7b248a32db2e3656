import Mathlib.Data.List.Forall2
import PugTemplate.Proofs.Program.Agreement
/-!
# Loops that are written twice

The body of a loop is written twice: for arrays, and for other objects. If the writer comes to both
copies in the same style, they are the same up to the variables of inner loops, which are counted on. A
document type or a first tag in the body changes the style, and then the copies may differ.
-/

namespace PugTemplate

open List

namespace Program

open Emit

/-- The same write, or the start of a loop whose variable is counted from another number on. -/
inductive Write.Renamed (m n : Nat) : Write → Write → Prop
  | same (w : Write) : Renamed m n w w
  | items {i j : Nat} (h : i + n = j + m) (item : String) :
      Renamed m n (.statement (itemLoop ("pug_index" ++ toString i) item))
        (.statement (itemLoop ("pug_index" ++ toString j) item))
  | keys {i j : Nat} (h : i + n = j + m) (item : String) :
      Renamed m n (.statement (keyLoop ("pug_index" ++ toString i) item))
        (.statement (keyLoop ("pug_index" ++ toString j) item))

/-- Both runs write the same up to the variables of loops. -/
def byName (m n : Nat) : Likeness where
  first := m
  second := n
  Alike := Forall₂ (Write.Renamed m n)
  refl _ := forall₂_same.mpr fun w _ => .same w
  append h h' := rel_append h h'

theorem relates_byName (m n : Nat) : RelatesTrees (fun _ => True) (byName m n).Indices Eq
    fun _ x y => Agrees (byName m n) Eq x y where
  pure _ := .pure rfl
  bind := .seq
  withState := .withState
  text := .text
  value _ := .write _
  doctypeWritten := .change fun _ _ _ => rfl
  tagWritten := .change fun _ _ _ => rfl
  evaluator hen := hen ▸ rfl
  helper hen _ _ := hen ▸ (Agrees.useHelpers rfl _).seq fun _ => .pure rfl
  attributes hen _ _ :=
    hen ▸ .withState fun _ _ _ => (Agrees.useHelpers rfl _).seq fun _ => .pure rfl
  indent hen _ _ _ := hen ▸ .ite ((Agrees.text _).seq fun _ => .ite (.write _) (.pure rfl)) (.pure rfl)
  choose _ := .change fun _ _ _ => rfl
  keepSpace _ := .change fun _ _ _ => rfl
  write := .write
  loop key _ _ h := (Agrees.loopIndex key).bind h
  itemLoop := by
    rintro _ _ (rfl | ⟨i, j, rfl, rfl, h⟩) item
    · exact .write _
    · exact fun _ _ hs => .done rfl (.cons (.items h item) .nil) hs
  keyLoop := by
    rintro _ _ (rfl | ⟨i, j, rfl, rfl, h⟩) item
    · exact .write _
    · exact fun _ _ hs => .done rfl (.cons (.keys h item) .nil) hs
  emitStatements := .emitStatements
  emitClosed _ _ _ := .withState fun _ _ _ => (Agrees.text _).seq fun _ =>
    .ite (.fail _) (.pure rfl)
  unsupported _ _ _ := .fail _
  children _ _ _ _ := trivial
  mixins hen := hen ▸ rfl
  emitDebugLine hen _ := hen ▸ .ite (.write _) (.pure rfl)
  inFrame hen _ _ hx := hen ▸ (Agrees.ite (.write _) (.pure rfl)).seq fun _ => hx.seq fun _ =>
    .ite (.write _) (.pure rfl)
  inTag hen := hen ▸ rfl
  inMixin hen := hen ▸ rfl
  inCall hen := hen ▸ rfl

/-- The states differ in the helpers and in the number of loops at most. -/
def WriterState.SameStyle (s t : WriterState) : Prop :=
  t = { s with helpers := t.helpers, loops := t.loops }

/-- **Two copies of a block**, with the states behind them. In the same style they are the same up to
the variables of loops. -/
structure Copies (env : WriterSetting) (body : Block) (s t : WriterState) (ws us : List Write)
    (s' t' : WriterState) : Prop where
  first : emitBlock env body s = .ok ((), ws, s')
  second : emitBlock env body t = .ok ((), us, t')
  renamed : s.SameStyle t → Forall₂ (Write.Renamed s.loops t.loops) ws us ∧ s'.SameStyle t'

variable {env : WriterSetting} {body : Block} {s t s' t' : WriterState} {ws us : List Write}

theorem copies_of_ok (h : emitBlock env body s = .ok ((), ws, s'))
    (h' : emitBlock env body t = .ok ((), us, t')) : Copies env body s t ws us s' t' := by
  refine ⟨h, h', fun hst => ?_⟩
  have hr := (relates_byName s.loops t.loops).block (rfl : env = env) body (fun _ _ => trivial) s t
    ⟨t.helpers, t.loops, hst, Nat.add_comm _ _⟩
  rw [h, h'] at hr
  cases hr with
  | done _ hw hs =>
    obtain ⟨helpers, loops, rfl, -⟩ := hs
    exact ⟨hw, rfl⟩

theorem statement_bind_ok {code : String} {f : Unit → Emit Unit}
    (h : (statement code >>= f) s = .ok ((), ws, t)) :
    ∃ rest, ws = .statement code :: rest ∧ f () s = .ok ((), rest, t) := by
  obtain ⟨_, _, _, rest, hx, hf, rfl⟩ := bind_eq_ok.mp h
  cases hx
  exact ⟨rest, rfl, hf⟩

theorem emitOption_ok {before after : List String}
    (h : emitOption env before after (some body) s = .ok ((), ws, t)) :
    ∃ us, emitBlock env body s = .ok ((), us, t) ∧
      ws = before.map .statement ++ (us ++ after.map .statement) := by
  obtain ⟨_, _, _, _, hx, h, hws⟩ := bind_eq_ok.mp h
  cases hx
  obtain ⟨⟨⟩, us, _, _, hb, h, hafter⟩ := bind_eq_ok.mp h
  cases h
  exact ⟨us, hb, hws.trans (congrArg _ hafter)⟩

end Program
end PugTemplate
