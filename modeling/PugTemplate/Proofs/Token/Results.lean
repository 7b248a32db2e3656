import PugTemplate.Token.Lexer
/-!
# Results

What is known of the result of a reader that may fail.
-/

namespace PugTemplate

/-- The result has a property, if there is one. -/
def Ensures {ε α : Type} (x : Except ε α) (P : α → Prop) : Prop := ∀ a, x = .ok a → P a

namespace Ensures

variable {ε α β : Type} {x : Except ε α} {P Q : α → Prop} {R : β → Prop} {f : α → Except ε β}

theorem ok {a : α} (h : P a) : Ensures (Except.ok a : Except ε α) P := by
  intro b hb
  cases hb
  exact h

theorem error {e : ε} : Ensures (Except.error e : Except ε α) P := by
  intro b hb
  cases hb

theorem bind (hx : Ensures x P) (hf : ∀ a, P a → Ensures (f a) R) : Ensures (x >>= f) R := by
  intro b hb
  cases x with
  | error e => cases hb
  | ok a => exact hf a (hx a rfl) b hb

theorem any : Ensures x fun _ => True := fun _ _ => trivial

theorem mono (hx : Ensures x P) (h : ∀ a, P a → Q a) : Ensures x Q := fun a ha => h a (hx a ha)

end Ensures

/-- A result has one property, and a failure another one. -/
def Yields {ε α : Type} (x : Except ε α) (P : α → Prop) (E : ε → Prop) : Prop :=
  match x with
  | .ok a => P a
  | .error e => E e

namespace Yields

variable {ε α β : Type} {x : Except ε α} {P Q : α → Prop} {E F : ε → Prop} {R : β → Prop}
  {f : α → Except ε β}

theorem ok {a : α} (h : P a) : Yields (.ok a : Except ε α) P E := h

theorem error {e : ε} (h : E e) : Yields (.error e : Except ε α) P E := h

theorem bind (hx : Yields x P E) (hf : ∀ a, P a → Yields (f a) R E) : Yields (x >>= f) R E := by
  cases x with
  | error e => exact hx
  | ok a => exact hf a hx

theorem mono (hx : Yields x P E) (hP : ∀ a, P a → Q a) (hE : ∀ e, E e → F e) : Yields x Q F := by
  cases x with
  | error e => exact hE e hx
  | ok a => exact hP a hx

theorem and (hx : Yields x P E) (h : Ensures x Q) : Yields x (fun a => P a ∧ Q a) E := by
  cases x with
  | error e => exact hx
  | ok a => exact ⟨hx, h a rfl⟩

theorem of_ok {a : α} (hx : Yields x P E) (h : x = .ok a) : P a := by
  subst h
  exact hx

theorem of_error {e : ε} (hx : Yields x P E) (h : x = .error e) : E e := by
  subst h
  exact hx

end Yields

end PugTemplate
