import Mathlib.Data.List.Basic
import PugTemplate.Text.Quoted
/-!
# Texts as strings of a script

A script has no characters: its strings are made of code units of sixteen bits, and a character
beyond the first plane is a pair of them, called surrogates. What a script does to each unit of a
string is what is done to each character of the text, as long as it leaves surrogates alone.
-/

namespace PugTemplate

open List
namespace Script

abbrev Units := List UInt16

namespace Units

/-! ## Encoding -/

def ofChar (c : Char) : Units :=
  if c.toNat < 0x10000 then [UInt16.ofNat c.toNat]
  else
    [UInt16.ofNat (0xD800 + (c.toNat - 0x10000) / 0x400),
      UInt16.ofNat (0xDC00 + (c.toNat - 0x10000) % 0x400)]

def ofChars (cs : List Char) : Units := cs.flatMap ofChar

def ofText (text : String) : Units := ofChars text.toList

def isHigh (u : UInt16) : Bool := 0xD800 ≤ u.toNat && u.toNat < 0xDC00

def isLow (u : UInt16) : Bool := 0xDC00 ≤ u.toNat && u.toNat < 0xE000

/-- **The forms of a character**: a unit that is no surrogate, or a pair of surrogates. -/
inductive Form (c : Char) : Units → Prop
  | single {u : UInt16} (hunit : u.toNat = c.toNat) (hhigh : isHigh u = false)
      (hlow : isLow u = false) : Form c [u]
  | pair {u w : UInt16} (hhigh : isHigh u = true) (hlow : isLow w = true)
      (hunits : c.toNat = 0x10000 + (u.toNat - 0xD800) * 0x400 + (w.toNat - 0xDC00)) :
      Form c [u, w]

theorem form_ofChar (c : Char) : Form c (ofChar c) := by
  have hv : c.toNat < 0xD800 ∨ 0xDFFF < c.toNat ∧ c.toNat < 0x110000 := c.valid
  have hs : UInt16.size = 65536 := rfl
  unfold ofChar
  split
  · next hp =>
    have hu : (UInt16.ofNat c.toNat).toNat = c.toNat := UInt16.toNat_ofNat_of_lt hp
    refine .single hu ?_ ?_
    · unfold isHigh
      simp
      omega
    · unfold isLow
      simp
      omega
  · next hp =>
    have hh : (UInt16.ofNat (0xD800 + (c.toNat - 0x10000) / 0x400)).toNat =
        0xD800 + (c.toNat - 0x10000) / 0x400 := UInt16.toNat_ofNat_of_lt (by omega)
    have hl : (UInt16.ofNat (0xDC00 + (c.toNat - 0x10000) % 0x400)).toNat =
        0xDC00 + (c.toNat - 0x10000) % 0x400 := UInt16.toNat_ofNat_of_lt (by omega)
    refine .pair ?_ ?_ ?_
    · unfold isHigh
      simp
      omega
    · unfold isLow
      simp
      omega
    · omega

variable {c d a : Char} {us : Units} {cs : List Char} {f : UInt16 → Units}

@[simp] theorem ofChars_nil : ofChars [] = [] := rfl

@[simp] theorem ofChars_cons (c : Char) (cs : List Char) :
    ofChars (c :: cs) = ofChar c ++ ofChars cs := rfl

@[simp] theorem ofChars_append (as bs : List Char) :
    ofChars (as ++ bs) = ofChars as ++ ofChars bs := flatMap_append

@[simp] theorem ofText_append (a b : String) : ofText (a ++ b) = ofText a ++ ofText b := by
  simp [ofText]

@[simp] theorem ofText_ofList (cs : List Char) : ofText (String.ofList cs) = ofChars cs := by
  simp [ofText]

theorem Form.ne_nil (h : Form c us) : us ≠ [] := by
  cases h with
  | single | pair => exact cons_ne_nil _ _

theorem ofChar_ne_nil (c : Char) : ofChar c ≠ [] := (form_ofChar c).ne_nil

@[simp] theorem ofText_eq_nil {text : String} : ofText text = [] ↔ text = "" := by
  unfold ofText ofChars
  rw [flatMap_eq_nil_iff]
  constructor
  · intro h
    cases hch : text.toList with
    | nil => exact String.toList_eq_nil_iff.mp hch
    | cons c cs => exact absurd (h c (hch ▸ mem_cons_self ..)) (ofChar_ne_nil c)
  · rintro rfl c hc
    cases hc

/-! ## Different texts -/

theorem eq_of_toNat_eq (h : c.toNat = d.toNat) : c = d :=
  Char.ext (UInt32.toNat_inj.mp h)

theorem Form.append_inj {ws as bs : Units} (hc : Form c us) (hd : Form d ws)
    (h : us ++ as = ws ++ bs) : c = d ∧ as = bs := by
  cases hc with
  | single hun hh =>
    cases hd with
    | single hu' =>
      cases h
      exact ⟨eq_of_toNat_eq (hun.symm.trans hu'), rfl⟩
    | pair hh' =>
      cases h
      rw [hh] at hh'
      cases hh'
  | pair hh hl hu =>
    cases hd with
    | single hu' hh' =>
      cases h
      rw [hh] at hh'
      cases hh'
    | pair _ _ hun' =>
      obtain ⟨rfl, hm⟩ := cons.inj h
      cases hm
      exact ⟨eq_of_toNat_eq (hu.trans hun'.symm), rfl⟩

theorem ofChars_inj {ds : List Char} (h : ofChars cs = ofChars ds) : cs = ds := by
  induction cs generalizing ds with
  | nil =>
    cases ds with
    | nil => rfl
    | cons d ds => exact absurd (append_eq_nil_iff.mp h.symm).1 (ofChar_ne_nil d)
  | cons c cs ih =>
    cases ds with
    | nil => exact absurd (append_eq_nil_iff.mp h).1 (ofChar_ne_nil c)
    | cons d ds =>
      obtain ⟨rfl, hm⟩ := (form_ofChar c).append_inj (form_ofChar d) h
      rw [ih hm]

theorem ofText_inj {a b : String} : ofText a = ofText b ↔ a = b :=
  ⟨fun h => String.toList_inj.mp (ofChars_inj h), fun h => h ▸ rfl⟩

/-! ## Units that stand for one character -/

theorem Form.toNat_eq (h : Form c us) {u : UInt16} (hm : u ∈ us) (hu : u.toNat < 0xD800) :
    c.toNat = u.toNat := by
  cases h with
  | single hun =>
    rw [mem_singleton] at hm
    rw [hm, hun]
  | pair hh hl =>
    unfold isHigh at hh
    unfold isLow at hl
    simp only [Bool.and_eq_true, decide_eq_true_eq] at hh hl
    rw [mem_cons, mem_singleton] at hm
    rcases hm with rfl | rfl
    · omega
    · omega

theorem mem_ofChar (ha : a.toNat < 0xD800) : UInt16.ofNat a.toNat ∈ ofChar c ↔ c = a := by
  have hp : a.toNat < 0x10000 := Nat.lt_trans ha (by decide)
  have hu : (UInt16.ofNat a.toNat).toNat = a.toNat := UInt16.toNat_ofNat_of_lt hp
  constructor
  · intro hm
    have hc := (form_ofChar c).toNat_eq hm (by rw [hu]; exact ha)
    exact eq_of_toNat_eq (hc.trans hu)
  · rintro rfl
    rw [ofChar, if_pos hp]
    exact mem_singleton_self _

theorem mem_ofChars (ha : a.toNat < 0xD800) : UInt16.ofNat a.toNat ∈ ofChars cs ↔ a ∈ cs := by
  unfold ofChars
  rw [mem_flatMap]
  constructor
  · rintro ⟨c, hc, hm⟩
    rwa [(mem_ofChar ha).mp hm] at hc
  · intro hm
    exact ⟨a, hm, (mem_ofChar ha).mpr rfl⟩

theorem flatMap_eq_self (h : ∀ u ∈ us, f u = [u]) : us.flatMap f = us :=
  (flatMap_congr h).trans (flatMap_singleton' us)

theorem flatMap_ofChars {g : Char → List Char} (h : ∀ c, (ofChar c).flatMap f = ofChars (g c))
    (cs : List Char) : (ofChars cs).flatMap f = ofChars (cs.flatMap g) := by
  induction cs with
  | nil => rfl
  | cons c cs ih => rw [ofChars_cons, flatMap_append, h, ih, flatMap_cons, ofChars_append]

theorem ofText_intercalate (separator : String) (texts : List String) :
    ofText (String.intercalate separator texts) =
      (ofText separator).intercalate (texts.map ofText) := by
  induction texts with
  | nil => simp
  | cons text texts ih =>
    cases texts with
    | nil => simp
    | cons next rest =>
      rw [String.intercalate_cons_cons, ofText_append, ih]
      simp [intercalate]

end Units
end Script
end PugTemplate
