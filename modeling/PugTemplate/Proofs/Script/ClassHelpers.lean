import PugTemplate.Proofs.Markup.ClassNames
/-!
# The helpers for classes at work

What the helpers `escape`, `classes` and `attr` give when a program calls them, in the steps that
their sources take. They give what is written when the values are known beforehand. A value is a
value of a script here: an object has its entries in the order in which a script goes through them.
-/

namespace PugTemplate

open List Markup Bool Value
namespace Script
namespace Helpers

/-! ## The helpers -/

def entity? : Char → Option String
  | '"' => some "&quot;"
  | '&' => some "&amp;"
  | '<' => some "&lt;"
  | '>' => some "&gt;"
  | _ => none

/-- Adds characters to a result, the special ones as entities. -/
def escapeLoop : List Char → String → String
  | [], result => result
  | c :: cs, result => escapeLoop cs (result ++ (entity? c).getD (String.singleton c))

/-- The helper `escape`: a value without special characters in its text is given back as it is. -/
def escape (v : Value) : Value :=
  if v.toText.toList.any fun c => (entity? c).isSome then .string (escapeLoop v.toText.toList "")
  else v

/-- The names that a loop has joined, and what it puts in front of the next one. -/
structure Joined where
  names : String := ""
  padding : String := ""

def Joined.add (j : Joined) (name : String) : Joined := ⟨j.names ++ j.padding ++ name, " "⟩

def classesObject : List (String × Value) → Joined → Joined
  | [], j => j
  | (key, v) :: rest, j =>
    if !key.isEmpty && v.truthy then classesObject rest (j.add key) else classesObject rest j

mutual

/-- The helper `classes` without flags. Anything that is neither an array nor an object is given
back, or an empty string instead of what is not true. -/
def classes : Value → Value
  | .array items => .string (classesArray items [] {}).names
  | .object entries => .string (classesObject entries {}).names
  | v => if v.truthy then v else .string ""

/-- The loop of the helper for arrays; the flags tell which items are escaped. -/
def classesArray : List Value → List Bool → Joined → Joined
  | [], _, j => j
  | v :: vs, flags, j =>
    let name := classes v
    if !name.truthy then classesArray vs flags.tail j
    else
      let name := if flags.headD false then escape name else name
      classesArray vs flags.tail (j.add name.toText)

end

/-- The helper `attr` for a string. -/
def attr (key text : String) (escaped : Bool) : String :=
  if text.isEmpty && (key == "class" || key == "style") then ""
  else " " ++ key ++ "=\"" ++ (if escaped then (escape (.string text)).toText else text) ++ "\""

/-! ## Escaping -/

theorem isSome_entity? (c : Char) : (entity? c).isSome = isSpecial c := by
  cases h : isSpecial c with
  | true =>
    simp only [isSpecial, or_eq_true, beq_iff_eq] at h
    rcases h with ((rfl | rfl) | rfl) | rfl <;> rfl
  | false =>
    unfold entity?
    split <;> first | rfl | exact absurd h (by decide)

theorem toList_entity? (c : Char) :
    ((entity? c).getD (String.singleton c)).toList = escapeChar c := by
  cases h : isSpecial c with
  | true =>
    simp only [isSpecial, or_eq_true, beq_iff_eq] at h
    rcases h with ((rfl | rfl) | rfl) | rfl <;> rfl
  | false =>
    have hn : entity? c = none := by simpa [h] using isSome_entity? c
    rw [hn, escapeChar_of_ordinary h]
    simp

theorem toList_escapeLoop (cs : List Char) (result : String) :
    (escapeLoop cs result).toList = result.toList ++ escapeChars cs := by
  induction cs generalizing result with
  | nil => simp [escapeLoop]
  | cons c cs ih =>
    rw [escapeLoop, ih, String.toList_append, toList_entity?, escapeChars_cons, append_assoc]

theorem toText_escape (v : Value) : (escape v).toText = Markup.escape v.toText := by
  unfold escape
  simp only [isSome_entity?]
  split
  · rw [toText, ← String.toList_inj, toList_escapeLoop]
    simp
  · next h => exact (eq_escape_iff _).mpr (by simpa using h)

/-! ## Joining -/

/-- The joined names are some characters without the space in front of them, and the next name is
separated from them if there are any. -/
structure Holds (joined : List Char) (j : Joined) : Prop where
  names : j.names.toList = joined.tail
  padding : j.padding.toList = if joined = [] then [] else [' ']

theorem holds_nil : Holds [] {} := ⟨rfl, rfl⟩

variable {j : Joined} {joined : List Char}

theorem Holds.add (h : Holds joined j) (name : String) :
    Holds (joined ++ ' ' :: name.toList) (j.add name) := by
  refine ⟨?_, by simp [Joined.add]⟩
  rw [Joined.add, String.toList_append, String.toList_append, h.names, h.padding]
  cases joined with
  | nil => simp
  | cons c cs => simp

theorem classesObject_spec (entries : List (String × Value)) (h : Holds joined j) :
    Holds (joined ++ spaced ((trueKeys entries).map String.toList)) (classesObject entries j) := by
  induction entries generalizing joined j with
  | nil => simpa [classesObject, trueKeys] using h
  | cons e rest ih =>
    obtain ⟨key, v⟩ := e
    rw [classesObject]
    split
    · next hk =>
      have hn : key.toList ≠ [] := by
        simp only [and_eq_true] at hk
        simpa using hk.1
      have hke : trueKeys ((key, v) :: rest) = key :: trueKeys rest := by
        unfold trueKeys
        rw [filter_cons_of_pos (by exact hk)]
        rfl
      rw [hke, map_cons, spaced_cons_of_ne_nil hn, ← append_assoc]
      exact ih (h.add key)
    · next hk =>
      have hke : trueKeys ((key, v) :: rest) = trueKeys rest := by
        unfold trueKeys
        rw [filter_cons_of_neg (by exact hk)]
      rw [hke]
      exact ih h

theorem names_eq {names : List String} (h : Holds (spaced (names.map String.toList)) j) :
    j.names = joinNames names := by
  rw [← String.toList_inj, toList_joinNames, h.names]

/-! ## Class names -/

theorem escapedItems_nil (vs : List Value) : escapedItems vs [] = classItems vs := by
  induction vs with
  | nil => rfl
  | cons v vs ih => simp [escapedItems, classItems, ih]

theorem filter_trueKeys (entries : List (String × Value)) :
    ((trueKeys entries).filter fun name => !name.isEmpty) = trueKeys entries := by
  rw [filter_eq_self]
  intro key hk
  obtain ⟨e, he, rfl⟩ := mem_map.mp hk
  have ht := (mem_filter.mp he).2
  simp only [and_eq_true] at ht
  exact ht.1

theorem isEmpty_toString (n : Int) : (toString n).isEmpty = false := by
  rw [String.isEmpty_eq_false_iff]
  cases n with
  | ofNat m => exact Nat.repr_ne_empty
  | negSucc m =>
    intro h
    have hs := congrArg String.toList (show "-" ++ toString (m + 1) = "" from h)
    rw [String.toList_append] at hs
    cases hs

/-- What the helper gives for a value stands for the class names of the value. -/
structure Names (v : Value) : Prop where
  truthy : (classes v).truthy = !(Markup.classNames v).isEmpty
  text : (classes v).truthy = true → (classes v).toText = Markup.classNames v

theorem names_of_string {v : Value} {s : String} (h : classes v = .string s)
    (hs : s = classNames v) : Names v := by
  subst hs
  exact ⟨by rw [h]; rfl, fun _ => by rw [h]; rfl⟩

mutual

theorem classes_spec (v : Value) (hv : v.isWhole) : Names v := by
  cases v with
  | array items =>
    have hi := classesArray_spec items [] hv holds_nil
    rw [escapedItems_nil, nil_append] at hi
    exact names_of_string rfl (names_eq hi)
  | object entries =>
    have hen := classesObject_spec entries holds_nil
    rw [nil_append] at hen
    refine names_of_string rfl ?_
    rw [names_eq hen, joinNames, filter_trueKeys, classNames]
  | null => exact ⟨rfl, fun h => absurd h (by decide)⟩
  | bool b => cases b <;> exact ⟨by decide, by decide⟩
  | int n =>
    -- zero is not true and has no name; any other number is given back as a number
    by_cases hz : n = 0
    · subst hz
      exact ⟨by decide, by decide⟩
    · have ht : (int n).truthy := by simpa [truthy] using hz
      have hb : n.natAbs < integerBound := by simpa [isWhole] using hv
      have hc : classes (.int n) = .int n := if_pos ht
      have hn : classNames (.int n) = (int n).toText := if_pos ht
      refine ⟨?_, fun _ => by rw [hc, hn]⟩
      rw [hc, ht, hn, toText_int hb, isEmpty_toString]
      rfl
  | double x => exact absurd hv (by simp [isWhole])
  | string s =>
    refine names_of_string (s := s) ?_ (classNames_string s).symm
    by_cases hs : s = ""
    · subst hs
      rfl
    · exact if_pos (by simpa [truthy] using hs)

theorem classesArray_spec (vs : List Value) (flags : List Bool) {joined : List Char} {j : Joined}
    (hvs : areWhole vs) (h : Holds joined j) :
    Holds (joined ++ spaced ((escapedItems vs flags).map String.toList))
      (classesArray vs flags j) := by
  cases vs with
  | nil => simpa [classesArray, escapedItems] using h
  | cons v vs =>
    simp only [areWhole, and_eq_true] at hvs
    have hv := classes_spec v hvs.1
    rw [classesArray, escapedItems]
    -- what the loop skips has no names, and escaping leaves it so
    cases ht : (classes v).truthy with
    | false =>
      have hem : Markup.classNames v = "" := by simpa [ht] using hv.truthy.symm
      have hn : (if flags.headD false then Markup.escape "" else "") = "" := by split <;> rfl
      simp only [Bool.not_false, if_true, hem, hn, map_cons, String.toList_empty,
        Markup.spaced_cons_nil]
      exact classesArray_spec vs flags.tail hvs.2 h
    | true =>
      have hne : Markup.classNames v ≠ "" := by simpa [ht] using hv.truthy.symm
      generalize hn : (if flags.headD false then Markup.escape (Markup.classNames v)
        else Markup.classNames v) = name
      have hn' : name.toList ≠ [] := by
        rw [← hn]
        split
        · rw [toList_escape, Ne, escape_eq_nil]
          simpa using hne
        · simpa using hne
      have hte : (if flags.headD false then escape (classes v) else classes v).toText = name := by
        rw [← hn, ← hv.text ht]
        split
        · exact toText_escape _
        · rfl
      simp only [Bool.not_true, Bool.false_eq_true, if_false, hte, map_cons]
      rw [spaced_cons_of_ne_nil hn', ← append_assoc]
      exact classesArray_spec vs flags.tail hvs.2 (h.add name)

end

/-! ## Attributes -/

/-- **The helper `classes`** gives the text of a class attribute. -/
theorem names_classesArray {values : List Value} (hv : areWhole values) (flags : List Bool) :
    (classesArray values flags {}).names = Markup.classes (.array values) flags := by
  have h := classesArray_spec values flags hv holds_nil
  exact names_eq h

/-- **The helper `attr`** gives the markup of a class attribute. -/
theorem attr_class (text : String) (terse : Bool) :
    attr "class" text false = attributeText "class" (.string text) false terse := by
  by_cases ht : text = ""
  · subst ht
    rfl
  · simp [attr, attributeText, isAbsent, truthy, textAttribute, keyed, toText, ht]

theorem attr_class_inj {a b : String} (h : attr "class" a false = attr "class" b false) :
    a = b := by
  have hm (text : String) (ht : text ≠ "") :
      (attr "class" text false).toList = " class=\"".toList ++ (text.toList ++ ['"']) := by
    have hatt : attr "class" text false = " " ++ "class" ++ "=\"" ++ text ++ "\"" :=
      if_neg (by simp [ht])
    rw [hatt, String.toList_append, String.toList_append]
    rfl
  have hl := congrArg String.toList h
  -- an empty text gives no markup at all, so the cases cannot be mixed
  by_cases ha : a = ""
  · by_cases hb : b = ""
    · rw [ha, hb]
    · rw [ha, hm b hb] at hl
      cases hl
  · by_cases hb : b = ""
    · rw [hb, hm a ha] at hl
      cases hl
    · rw [hm a ha, hm b hb] at hl
      exact String.toList_inj.mp (append_cancel_right (append_cancel_left hl))

end Helpers
end Script
end PugTemplate
