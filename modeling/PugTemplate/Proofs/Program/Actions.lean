import PugTemplate.Program.Emit
/-!
# Laws of actions

How the writer's actions run, and what can be said of everything an action emits. Proofs about trees
go through these laws and never open the definition of an action.
-/

namespace PugTemplate
namespace Program
namespace Emit

variable {α β : Type} {x : Emit α} {f : α → Emit β} {s t u : WriterState} {a : α} {b : β}
  {d : Diagnostic} {ws : List Write} {P Q : List Write → Prop}

/-! ## Running actions -/

@[simp] theorem pure_run (a : α) (s : WriterState) : (pure a : Emit α) s = .ok (a, [], s) := rfl

@[simp] theorem write_run (w : Write) (s : WriterState) : write w s = .ok ((), [w], s) := rfl

@[simp] theorem text_run (c : String) (s : WriterState) : text c s = .ok ((), [.text c], s) := rfl

@[simp] theorem state_run (s : WriterState) : state s = .ok (s, [], s) := rfl

@[simp] theorem change_run (g : WriterState → WriterState) (s : WriterState) :
    change g s = .ok ((), [], g s) := rfl

@[simp] theorem fail_run (d : Diagnostic) (s : WriterState) : (fail d : Emit α) s = .error d := rfl

@[simp] theorem onlyIf_true (x : Emit Unit) : onlyIf true x = x := rfl

@[simp] theorem onlyIf_false (x : Emit Unit) : onlyIf false x = pure () := rfl

theorem bind_run_ok (h : x s = .ok (a, ws, t)) :
    (x >>= f) s = (f a t).map fun r => (r.1, ws ++ r.2.1, r.2.2) := by
  show Emit.bind x f s = _
  unfold Emit.bind
  rw [h]
  dsimp only
  cases f a t with
  | error d => rfl
  | ok r => rfl

theorem bind_run_error (h : x s = .error d) : (x >>= f) s = .error d := by
  show Emit.bind x f s = _
  unfold Emit.bind
  rw [h]

/-- **A sequence that succeeds.** Both actions succeed, and their writes stand after each other. -/
theorem bind_eq_ok : (x >>= f) s = .ok (b, ws, u) ↔
    ∃ a first t second, x s = .ok (a, first, t) ∧ f a t = .ok (b, second, u) ∧
      ws = first ++ second := by
  constructor
  · intro h
    cases hx : x s with
    | error d => rw [bind_run_error hx] at h; exact absurd h (by simp)
    | ok r =>
      obtain ⟨a, first, t⟩ := r
      rw [bind_run_ok hx] at h
      cases hf : f a t with
      | error d => rw [hf] at h; exact absurd h (by simp [Except.map])
      | ok q =>
        obtain ⟨b', second, u'⟩ := q
        rw [hf] at h
        obtain ⟨rfl, rfl, rfl⟩ := h
        exact ⟨a, first, t, second, rfl, hf, rfl⟩
  · rintro ⟨a, first, t, second, hx, hf, rfl⟩
    rw [bind_run_ok hx, hf]
    rfl

@[simp] theorem pure_bind (a : α) (f : α → Emit β) : (pure a >>= f) = f a := by
  funext s
  rw [bind_run_ok (pure_run a s)]
  cases f a s <;> rfl

theorem state_bind (f : WriterState → Emit β) (s : WriterState) : (state >>= f) s = f s s := by
  rw [bind_run_ok (state_run s)]
  cases f s s <;> rfl

theorem change_bind (g : WriterState → WriterState) (f : Unit → Emit β) (s : WriterState) :
    (change g >>= f) s = f () (g s) := by
  rw [bind_run_ok (change_run g s)]
  cases f () (g s) <;> rfl

/-! ## What actions emit -/

/-- What the action emits, when it succeeds, has a property. -/
def Emits (x : Emit α) (P : List Write → Prop) : Prop :=
  ∀ s a ws t, x s = .ok (a, ws, t) → P ws

theorem Emits.bind {R : List Write → Prop} (hx : Emits x P) (hf : ∀ a, Emits (f a) Q)
    (h : ∀ first second, P first → Q second → R (first ++ second)) : Emits (x >>= f) R := by
  intro s b ws u hr
  obtain ⟨a, first, t, second, hxs, hft, rfl⟩ := bind_eq_ok.mp hr
  exact h first second (hx s a first t hxs) (hf a t b second u hft)

theorem Emits.imp (hx : Emits x P) (h : ∀ ws, P ws → Q ws) : Emits x Q :=
  fun s a ws t hr => h ws (hx s a ws t hr)

theorem Emits.fail (d : Diagnostic) : Emits (Emit.fail d : Emit α) P := by
  intro s a ws t h
  exact absurd h (by simp)

/-- Every write that the action emits has a property. -/
def Only (p : Write → Prop) (x : Emit α) : Prop := Emits x fun ws => ∀ w ∈ ws, p w

namespace Only

variable {p : Write → Prop}

theorem pure (a : α) : Only p (Pure.pure a : Emit α) := by
  intro s b ws t h
  obtain ⟨-, rfl, -⟩ := h
  simp

theorem bind (hx : Only p x) (hf : ∀ a, Only p (f a)) : Only p (x >>= f) :=
  Emits.bind hx hf fun _ _ hfi hs w hw =>
    (List.mem_append.mp hw).elim (hfi w) (hs w)

theorem write {w : Write} (h : p w) : Only p (Emit.write w) := by
  intro s a ws t hr
  obtain ⟨-, rfl, -⟩ := hr
  simpa using h

theorem state : Only p Emit.state := by
  intro s a ws t h
  obtain ⟨-, rfl, -⟩ := h
  simp

theorem change (g : WriterState → WriterState) : Only p (Emit.change g) := by
  intro s a ws t h
  obtain ⟨-, rfl, -⟩ := h
  simp

theorem fail (d : Diagnostic) : Only p (Emit.fail d : Emit α) := Emits.fail d

theorem onlyIf {y : Emit Unit} (c : Bool) (hy : Only p y) : Only p (Emit.onlyIf c y) := by
  cases c with
  | true => exact hy
  | false => exact pure ()

end Only
end Emit
end Program
end PugTemplate
