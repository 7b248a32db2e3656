import Mathlib.Algebra.Group.Int.Defs
import Mathlib.Algebra.Group.Nat.Defs
import PugTemplate.Proofs.Markup.ClassNames
/-!
# Numbers as text

A whole number is written as its decimal digits as long as it fits into 64 bits with a sign. A larger
one is first brought into that range, and so its text is that of another number.
-/

namespace PugTemplate

/-! ## Numerals -/

/-- **A numeral**: decimal digits, maybe with a minus sign before them, that stand for an integer. -/
inductive Numeral : String → Int → Prop where
  | positive {ds : List Char} (hne : ds ≠ []) (hdigits : ∀ c ∈ ds, c.isDigit = true) :
      Numeral (.ofList ds) (Nat.ofDigitChars 10 ds 0)
  | negative {ds : List Char} (hne : ds ≠ []) (hdigits : ∀ c ∈ ds, c.isDigit = true) :
      Numeral (.ofList ('-' :: ds)) (-Nat.ofDigitChars 10 ds 0)

namespace Numeral

theorem unique {text : String} {n m : Int} (h : Numeral text n) (h' : Numeral text m) : n = m := by
  have hs : ∀ ds ds', (∀ c ∈ ds, c.isDigit) → String.ofList ds ≠ String.ofList ('-' :: ds') := by
    intro ds ds' hd heq
    rw [String.ofList_injective heq] at hd
    exact absurd (hd '-' List.mem_cons_self) (by decide)
  generalize ht : text = text' at h'
  cases h with
  | positive _ hd =>
    cases h' with
    | positive => rw [String.ofList_injective ht]
    | negative => exact absurd ht (hs _ _ hd)
  | negative =>
    cases h' with
    | positive _ hd' => exact absurd ht.symm (hs _ _ hd')
    | negative => rw [(List.cons.inj (String.ofList_injective ht)).2]

theorem toString (n : Int) : Numeral (ToString.toString n) n := by
  have hd (m : Nat) : ∀ c ∈ Nat.toDigits 10 m, c.isDigit :=
    fun _ hc => Nat.isDigit_of_mem_toDigits (by decide) (by decide) hc
  cases n with
  | ofNat m =>
    have hp := positive Nat.toDigits_ne_nil (hd m)
    rwa [Nat.ofDigitChars_ten_toDigits, ← Nat.repr_eq_ofList_toDigits] at hp
  | negSucc m =>
    have hn := negative Nat.toDigits_ne_nil (hd (m + 1))
    rwa [Nat.ofDigitChars_ten_toDigits, String.ofList_cons, ← Nat.repr_eq_ofList_toDigits]
      at hn

end Numeral

/-! ## Whole doubles -/

/-- The double is an integer: `± mantissa * 2 ^ exponent` is that integer. -/
def Double.Is (x : Double) (n : Int) : Prop :=
  (if x.negative then -x.mantissa else x.mantissa : Int) * 2 ^ x.exponent.toNat =
    n * 2 ^ (-x.exponent).toNat

instance (x : Double) (n : Int) : Decidable (x.Is n) := by
  unfold Double.Is
  infer_instance

theorem Double.Is.exact {x : Double} {n : Int} (h : x.Is n) : x.isIntegral ∧ x.truncate = n := by
  unfold Is at h
  unfold isIntegral truncate
  by_cases he : 0 ≤ x.exponent
  · have hz : (-x.exponent).toNat = 0 := by omega
    rw [hz, Int.pow_zero, Int.mul_one] at h
    refine ⟨by simp [he], ?_⟩
    rw [if_pos he, ← h]
    split
    · show -((x.mantissa * Nat.pow 2 x.exponent.toNat : Nat) : Int) = _
      rw [Int.neg_mul, Int.natCast_mul]
      simp
    · simp
  · have hz : x.exponent.toNat = 0 := by omega
    rw [hz, Int.pow_zero, Int.mul_one] at h
    generalize (-x.exponent).toNat = k at h ⊢
    have hpo : (0 : Int) < 2 ^ k := Int.pow_pos (by decide)
    have hs : x.mantissa = n.natAbs * 2 ^ k := by
      have ha := congrArg Int.natAbs h
      rw [Int.natAbs_mul, Int.natAbs_pow] at ha
      rw [← show _ = n.natAbs * 2 ^ k from ha]
      split <;> simp
    refine ⟨by simp [he, hs], ?_⟩
    rw [if_neg he, hs, Nat.pow_eq, Nat.mul_div_cancel _ (Nat.two_pow_pos k)]
    dsimp only
    split at h
    · rename_i hne
      have hl : n ≤ 0 := Int.not_lt.mp fun hn => by
        have := Int.mul_pos hn hpo
        omega
      rw [if_pos hne]
      omega
    · rename_i hp
      have hl : 0 ≤ n := Int.not_lt.mp fun hn => by
        have := Int.mul_neg_of_neg_of_pos hn hpo
        omega
      rw [if_neg hp]
      omega

namespace Value

theorem clamp_eq_iff (n : Int) : clamp n = n ↔ -2 ^ 63 ≤ n ∧ n < 2 ^ 63 := by
  have hl : leastExact = -2 ^ 63 := rfl
  have hg : greatestExact = 2 ^ 63 - 1 := rfl
  unfold clamp
  omega

theorem toText_ofDouble {x : Double} {n : Int} (hx : x.Is n) (hn : n.natAbs < 10 ^ 21) :
    (ofDouble x).toText = ToString.toString (clamp n) := by
  obtain ⟨hw, rfl⟩ := hx.exact
  unfold ofDouble
  split
  · rename_i hm
    have hb : x.truncate.natAbs < integerBound := by simpa [hw] using hm
    have hs : clamp x.truncate = x.truncate := by
      have h53 : integerBound = 2 ^ 53 := rfl
      rw [clamp_eq_iff]
      omega
    rw [toText_int hb, hs]
  · rw [toText, doubleText, if_pos]
    simpa [hw] using hn

/-- **Whole numbers as text.** -/
theorem numeral_toText_iff {x : Double} {n : Int} (hx : x.Is n) (hn : n.natAbs < 10 ^ 21) :
    Numeral (ofDouble x).toText n ↔ -2 ^ 63 ≤ n ∧ n < 2 ^ 63 := by
  rw [toText_ofDouble hx hn, ← clamp_eq_iff]
  constructor
  · exact fun h => (Numeral.toString _).unique h
  · intro h
    have hnumeral := Numeral.toString (clamp n)
    rwa [h] at hnumeral ⊢

/-- The least number that is written as it is. -/
theorem numeral_toText_least : Double.Is ⟨true, 2 ^ 52, 11⟩ (-2 ^ 63) ∧
    Numeral (ofDouble ⟨true, 2 ^ 52, 11⟩).toText (-2 ^ 63) := by
  have hx : Double.Is ⟨true, 2 ^ 52, 11⟩ (-2 ^ 63) := by decide
  exact ⟨hx, (numeral_toText_iff hx (by decide)).mpr (by decide)⟩

/-- The number behind the greatest one is written like another number. -/
theorem toText_beyond_greatest : Double.Is ⟨false, 2 ^ 52, 11⟩ (2 ^ 63) ∧
    (ofDouble ⟨false, 2 ^ 52, 11⟩).toText = "9223372036854775807" ∧
    ¬Numeral "9223372036854775807" (2 ^ 63) := by
  have hx : Double.Is ⟨false, 2 ^ 52, 11⟩ (2 ^ 63) := by decide
  have hother : Numeral "9223372036854775807" 9223372036854775807 := .toString 9223372036854775807
  exact ⟨hx, toText_ofDouble hx (by decide), fun h => absurd (h.unique hother) (by decide)⟩

end Value
end PugTemplate
