import PugTemplate.Node.OfTokens
/-!
# Laws of readers

When the readers of the grammar succeed, and what they leave.
-/

namespace PugTemplate
namespace TokenReader

variable {α β : Type} {x : TokenReader α} {f : α → TokenReader β} {ts rest : TokenStream}

/-! ## Readers after each other -/

/-- **A sequence that succeeds.** Both parts succeed, the second one on what the first one leaves. -/
theorem run_bind {b : β} : (x >>= f).run ts = .ok (b, rest) ↔
    ∃ a mid, x.run ts = .ok (a, mid) ∧ (f a).run mid = .ok (b, rest) := by
  rw [StateT.run_bind]
  cases hx : x.run ts with
  | error d =>
    constructor
    · intro h; exact absurd h (by simp [bind, Except.bind])
    · rintro ⟨a, mid, ha, -⟩; exact absurd ha (by simp)
  | ok r =>
    obtain ⟨a, mid⟩ := r
    constructor
    · intro h; exact ⟨a, mid, rfl, h⟩
    · rintro ⟨a', mid', ha, hf⟩
      obtain ⟨rfl, rfl⟩ := ha
      exact hf

theorem run_map {g : α → β} {a : α} (h : x.run ts = .ok (a, rest)) :
    (g <$> x).run ts = .ok (g a, rest) := by
  rw [map_eq_pure_bind]
  exact run_bind.mpr ⟨a, rest, h, rfl⟩

end TokenReader

theorem Block.ofTokens_eq_ok_iff {file : Option String} {plugins : Plugins} {tokens : TokenStream}
    {tree : Block} : Block.ofTokens file plugins tokens = .ok tree ↔
      ∃ rest, Block.read file plugins tokens = .ok (tree, rest) := by
  unfold Block.ofTokens
  cases Block.read file plugins tokens with
  | ok r => simp [Prod.ext_iff]
  | error halt => cases halt <;> simp

namespace TreeSetting

variable {env : TreeSetting} {ts rest : TokenStream} {t : Token} {kind : String}

/-! ## Single tokens -/

theorem run_expect (ht : t.name = kind) : (env.expect kind).run (t :: ts) = .ok (t, ts) := by
  show (if _ then _ else _ : TokenReader Token).run _ = _
  rw [if_pos (beq_iff_eq.mpr ht)]
  rfl

theorem run_accept_some (ht : t.name = kind) :
    (env.accept kind).run (t :: ts) = .ok (some t, ts) := by
  show (if _ then _ else _ : TokenReader (Option Token)).run _ = _
  rw [if_pos (beq_iff_eq.mpr ht)]
  rfl

theorem run_accept_none (ht : t.name ≠ kind) :
    (env.accept kind).run (t :: ts) = .ok (none, t :: ts) := by
  show (if _ then _ else _ : TokenReader (Option Token)).run _ = _
  rw [if_neg fun h => ht (beq_iff_eq.mp h)]
  rfl

theorem run_budget {n : Nat} : budget.run ts = .ok (n, rest) ↔ n = ts.length + 1 ∧ rest = ts := by
  show Except.ok (ts.length + 1, ts) = .ok (n, rest) ↔ _
  simp only [Except.ok.injEq, Prod.mk.injEq, eq_comm]

end TreeSetting

/-! ## Names of tokens -/

namespace Token

variable {t : Token}

theorem name_eq_indent : t.name = "indent" ↔ ∃ width, t.kind = .indent width := by
  obtain ⟨kind, at_⟩ := t
  cases kind <;> simp [name, TokenKind.name]

theorem name_eq_iff {k : TokenKind} (hk : k.fields = []) : t.name = k.name ↔ t.kind = k := by
  obtain ⟨kind, at_⟩ := t
  cases k
  case outdent | newline | eos | startAttributes | endAttributes | dot | slash | colon
    | startPipelessText | endPipelessText | startInterpolation | endInterpolation | blockCode
    | default | mixinBlock | yield | «extends» | «include» =>
    cases kind <;> simp [name, TokenKind.name]
  all_goals simp [TokenKind.fields, TokenKind.text?] at hk

theorem name_eq_else : t.name = "else" ↔ ∃ text, t.kind = .else text := by
  obtain ⟨kind, at_⟩ := t
  cases kind <;> simp [name, TokenKind.name]

theorem name_eq_path : t.name = "path" ↔ ∃ path, t.kind = .path path := by
  obtain ⟨kind, at_⟩ := t
  cases kind <;> simp [name, TokenKind.name]

end Token
end PugTemplate
