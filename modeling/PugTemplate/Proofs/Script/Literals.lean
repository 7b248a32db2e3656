import PugTemplate.Proofs.Script.Data
/-!
# Literals of constants

A constant stands in a script as a literal. The script builds the constant from it, except for one
key: in a literal, `__proto__` says what an object inherits from, and is no property of the object.
-/

namespace PugTemplate

open Value

open Script.Units (ofText)

namespace Script
namespace Datum

mutual

/-- What a script builds from the literal of a constant. -/
def literal : Value → Datum
  | .array items => .array (literalItems items)
  | .object entries => .object (literalEntries entries)
  | v => of v

def literalItems : List Value → List Datum
  | [] => []
  | v :: rest => literal v :: literalItems rest

def literalEntries : List (String × Value) → List (Units × Datum)
  | [] => []
  | (key, v) :: rest =>
    if key == "__proto__" then literalEntries rest
    else (ofText key, literal v) :: literalEntries rest

end

end Datum
end Script

namespace Value

mutual

/-- No object in the value has a key `__proto__`. -/
def isPlain : Value → Bool
  | .array items => arePlain items
  | .object entries => holdPlain entries
  | _ => true

def arePlain : List Value → Bool
  | [] => true
  | v :: vs => isPlain v && arePlain vs

def holdPlain : List (String × Value) → Bool
  | [] => true
  | (key, v) :: rest => key != "__proto__" && isPlain v && holdPlain rest

end

end Value

namespace Script
namespace Datum

theorem length_literalEntries_le (entries : List (String × Value)) :
    (literalEntries entries).length ≤ (ofEntries entries).length := by
  induction entries with
  | nil => exact Nat.le_refl _
  | cons e entries ih =>
    rw [literalEntries]
    split
    · exact Nat.le_succ_of_le ih
    · exact Nat.succ_le_succ ih

mutual

/-- **The literal of a constant** is read as the constant, exactly if no key of it is special. -/
theorem literal_eq_of_iff (v : Value) : literal v = of v ↔ v.isPlain := by
  cases v with
  | array items =>
    rw [literal, of, Value.isPlain, Datum.array.injEq]
    exact literalItems_eq_iff items
  | object entries =>
    rw [literal, of, Value.isPlain, Datum.object.injEq]
    exact literalEntries_eq_iff entries
  | _ => exact iff_of_true rfl rfl

theorem literalItems_eq_iff (vs : List Value) : literalItems vs = ofItems vs ↔ arePlain vs := by
  cases vs with
  | nil => exact iff_of_true rfl rfl
  | cons v vs =>
    rw [literalItems, ofItems, arePlain, List.cons.injEq, literal_eq_of_iff v,
      literalItems_eq_iff vs, Bool.and_eq_true]

theorem literalEntries_eq_iff (entries : List (String × Value)) :
    literalEntries entries = ofEntries entries ↔ holdPlain entries := by
  cases entries with
  | nil => exact iff_of_true rfl rfl
  | cons e entries =>
    obtain ⟨key, v⟩ := e
    rw [literalEntries, ofEntries, holdPlain]
    by_cases hk : key = "__proto__"
    · -- the literal has a property less
      rw [if_pos (beq_iff_eq.mpr hk)]
      refine iff_of_false (fun heq => ?_) (by simp [hk])
      have hl := length_literalEntries_le entries
      rw [heq, List.length_cons] at hl
      exact Nat.not_succ_le_self _ hl
    · rw [if_neg (by simpa using hk), List.cons.injEq, Prod.mk.injEq, literal_eq_of_iff v,
        literalEntries_eq_iff entries]
      simp [hk]

end

end Datum
end Script
end PugTemplate
