import PugTemplate.Proofs.Program.Relations
/-!
# Runs that agree

Two actions are compared by their runs from states that may differ in the helpers that have been
noted, and in the number of loops. What the runs write need not be the same, but has to belong
together in some way that goes through one action after another.
-/

namespace PugTemplate
namespace Program

open Emit WriterSetting

/-- How two runs belong together: the numbers of loops that they start with, and what they write. -/
structure Likeness where
  first : Nat
  second : Nat
  Alike : List Write → List Write → Prop
  refl : ∀ ws, Alike ws ws
  append : ∀ {ws ws' us us'}, Alike ws us → Alike ws' us' → Alike (ws ++ ws') (us ++ us')

/-- The states are the same up to the helpers and the loops, and there have been as many new loops in
both. -/
def Likeness.States (L : Likeness) (s t : WriterState) : Prop :=
  ∃ helpers loops, t = { s with helpers, loops } ∧ s.loops + L.second = loops + L.first

/-- Both runs fail with the same diagnostic, or both succeed with results that are related, and with
writes and states that belong together. -/
inductive AgreeingRuns (L : Likeness) {α β : Type} (R : α → β → Prop) :
    Except Diagnostic (α × List Write × WriterState) →
    Except Diagnostic (β × List Write × WriterState) → Prop where
  | fail (d : Diagnostic) : AgreeingRuns L R (.error d) (.error d)
  | done {a : α} {b : β} {ws us : List Write} {s t : WriterState} (hresult : R a b)
      (hwrites : L.Alike ws us) (hstate : L.States s t) :
      AgreeingRuns L R (.ok (a, ws, s)) (.ok (b, us, t))

/-- The actions run alike from states that belong together. -/
def Agrees (L : Likeness) {α β : Type} (R : α → β → Prop) (x : Emit α) (y : Emit β) : Prop :=
  ∀ s t, L.States s t → AgreeingRuns L R (x s) (y t)

/-- The names of loop variables belong together: they are the same, or both count the loops. -/
def Likeness.Indices (L : Likeness) (i j : String) : Prop :=
  i = j ∨ ∃ m n, i = "pug_index" ++ toString m ∧ j = "pug_index" ++ toString n ∧
    m + L.second = n + L.first

namespace Agrees

variable {L : Likeness} {α β γ δ : Type} {R : α → β → Prop} {Q : γ → δ → Prop} {y : Emit β}
  {f : α → Emit γ} {x : Emit α}

theorem bind {g : β → Emit δ} (hxy : Agrees L R x y)
    (hfg : ∀ a b, R a b → Agrees L Q (f a) (g b)) : Agrees L Q (x >>= f) (y >>= g) := by
  intro s t hst
  have hr := hxy s t hst
  generalize hx : x s = rx, hy : y t = ry at hr
  cases hr with
  | fail d =>
    rw [bind_run_error hx, bind_run_error hy]
    exact .fail d
  | done ha hw hs =>
    rw [bind_run_ok hx, bind_run_ok hy]
    have hr' := hfg _ _ ha _ _ hs
    generalize f _ _ = rf, g _ _ = rg at hr'
    cases hr' with
    | fail d => exact .fail d
    | done hb hw' hs' => exact .done hb (L.append hw hw') hs'

theorem pure {a : α} {b : β} (h : R a b) : Agrees L R (Pure.pure a) (Pure.pure b) :=
  fun _ _ hs => .done h (L.refl _) hs

theorem fail (d : Diagnostic) : Agrees L R (Emit.fail d) (Emit.fail d) := fun _ _ _ => .fail d

theorem write (w : Write) : Agrees L Eq (Emit.write w) (Emit.write w) :=
  fun _ _ hs => .done rfl (L.refl _) hs

theorem text (c : String) : Agrees L Eq (Emit.text c) (Emit.text c) := write _

theorem emitStatements (codes : List String) :
    Agrees L Eq (emitStatements codes) (emitStatements codes) :=
  fun _ _ hs => .done rfl (L.refl _) hs

/-- A change that neither looks at the helpers and the loops nor changes them. -/
theorem change {f : WriterState → WriterState}
    (hf : ∀ s helpers loops, f { s with helpers, loops } = { f s with helpers, loops }) :
    Agrees L Eq (Emit.change f) (Emit.change f) := by
  rintro s t ⟨helpers, loops, rfl, hl⟩
  have hs : (f s).loops = s.loops := by
    simpa using congrArg WriterState.loops (hf s s.helpers s.loops)
  exact .done rfl (L.refl _) ⟨helpers, loops, hf s helpers loops, hs ▸ hl⟩

theorem useHelpers {env env' : WriterSetting}
    (h : env'.options.inlineHelpers = env.options.inlineHelpers) (helpers : List Helper) :
    Agrees L Eq (env.useHelpers helpers) (env'.useHelpers helpers) := by
  unfold WriterSetting.useHelpers
  rw [h]
  cases env.options.inlineHelpers with
  | false => exact .pure rfl
  | true =>
    rintro s t ⟨more, loops, rfl, hl⟩
    exact .done rfl (L.refl _) ⟨more ++ helpers, loops, rfl, hl⟩

theorem ite {c : Prop} [Decidable c] {x' : Emit α} {y' : Emit β} (hx : Agrees L R x y)
    (hx' : Agrees L R x' y') : Agrees L R (if c then x else x') (if c then y else y') := by
  split
  · exact hx
  · exact hx'

theorem seq {y : Emit α} {g : α → Emit δ} (hx : Agrees L Eq x y)
    (hf : ∀ a, Agrees L Q (f a) (g a)) : Agrees L Q (x >>= f) (y >>= g) :=
  hx.bind fun a _ ha => ha ▸ hf a

theorem withState {f : WriterState → Emit γ} {g : WriterState → Emit δ}
    (hf : ∀ s helpers loops, Agrees L Q (f s) (g { s with helpers, loops })) :
    Agrees L Q (Emit.state >>= f) (Emit.state >>= g) := by
  rintro s t ⟨helpers, loops, rfl, hl⟩
  rw [state_bind, state_bind]
  exact hf s helpers loops _ _ ⟨helpers, loops, rfl, hl⟩

theorem loopIndex (key : Option String) : Agrees L L.Indices (loopIndex key) (loopIndex key) := by
  rintro s t ⟨helpers, loops, rfl, hl⟩
  refine .done ?_ (L.refl []) ⟨helpers, loops + 1, rfl, ?_⟩
  · cases key with
    | none => exact .inr ⟨s.loops, loops, rfl, rfl, hl⟩
    | some key => exact .inl rfl
  · show s.loops + 1 + L.second = loops + 1 + L.first
    omega

end Agrees
end Program
end PugTemplate
