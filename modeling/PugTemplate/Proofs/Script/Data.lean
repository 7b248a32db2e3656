import Mathlib.Data.List.Nodup
import PugTemplate.Proofs.Markup.ClassNames
import PugTemplate.Proofs.Script.Units
/-!
# Values of a script

The values that a script builds from literals, and what the language does with them: as conditions,
as strings, in loops over their keys, and as text of a data file. A string is asked of an object
through its methods. A property of its own may hide them, and then there is no string.
-/

namespace PugTemplate

open List Bool Value

open Script.Units (ofText ofChars)

namespace Script

/-- A value of a script that holds no function. Numbers are whole. -/
inductive Datum where
  | null
  | bool (b : Bool)
  | number (n : Int)
  | string (units : Units)
  | array (items : List Datum)
  | object (entries : List (Units × Datum))

/-- What stops a script: an object has no primitive value. -/
inductive Thrown where
  | noPrimitive
  deriving DecidableEq, Repr

abbrev Run := Except Thrown

/-! ## Strings -/

/-- What a primitive value is wanted for. -/
inductive Hint where
  | default
  | string

/-- The methods that are asked for a primitive value. -/
inductive Method where
  | toString
  | valueOf

def Method.name : Method → Units
  | .toString => ofText "toString"
  | .valueOf => ofText "valueOf"

/-- The methods in the order in which they are asked. -/
def Hint.methods : Hint → List Method
  | .default => [.valueOf, .toString]
  | .string => [.toString, .valueOf]

namespace Datum

/-- The primitive value that a method of an object gives. A property of the object's own hides the
method, and is no function. -/
def primitive? (entries : List (Units × Datum)) (m : Method) : Option Units :=
  if entries.any fun e => e.1 == m.name then none
  else
    match m with
    | .toString => some (ofText "[object Object]")
    -- the object itself is no primitive value
    | .valueOf => none

def primitive (hint : Hint) (entries : List (Units × Datum)) : Run Units :=
  match hint.methods.findSome? (primitive? entries) with
  | some text => .ok text
  | none => .error .noPrimitive

mutual

/-- The value as a string. An array is its items with commas between them. -/
def text (hint : Hint) : Datum → Run Units
  | .null => .ok (ofText "null")
  | .bool b => .ok (ofText (if b then "true" else "false"))
  | .number n => .ok (ofText (toString n))
  | .string units => .ok units
  | .array items => do
    let texts ← itemTexts items
    pure ((ofText ",").intercalate texts)
  | .object entries => primitive hint entries

/-- The items of an array as strings, where null is empty. -/
def itemTexts : List Datum → Run (List Units)
  | [] => .ok []
  | .null :: rest => do
    let texts ← itemTexts rest
    pure ([] :: texts)
  | v :: rest => do
    let first ← v.text .string
    let texts ← itemTexts rest
    pure (first :: texts)

end

def truthy : Datum → Bool
  | .null => false
  | .bool b => b
  | .number n => n != 0
  | .string units => !units.isEmpty
  | .array _ => true
  | .object _ => true

/-! ## Keys -/

def indexOf? (key : Units) : Option Nat :=
  let n := key.foldl (fun n u => 10 * n + (u.toNat - 48)) 0
  if n < Nat.pow 2 32 - 1 && ofText (toString n) == key then some n else none

/-- The keys of an object in the order of a loop: indices by their size, and then the others in the
order in which they have been set. -/
def order (keys : List Units) : List Units :=
  (keys.filter fun key => (indexOf? key).isSome).mergeSort
      (fun a b => (indexOf? a).getD 0 ≤ (indexOf? b).getD 0) ++
    keys.filter fun key => (indexOf? key).isNone

/-- The properties of a value, with their keys. -/
def properties : Datum → List (Units × Datum)
  | .array items => items.zipIdx.map fun p => (ofText (toString p.2), p.1)
  | .object entries => entries
  | _ => []

/-- The keys of a value in the order of a loop. -/
def keys : Datum → List Units
  | .array items => (properties (.array items)).map (·.1)
  | .object entries => order (entries.map (·.1))
  | _ => []

def get? (v : Datum) (key : Units) : Option Datum := v.properties.lookup key

def hasOwn (v : Datum) (key : Units) : Bool := v.properties.any fun p => p.1 == key

/-! ## Text of a data file -/

def shortEscape? (u : UInt16) : Option Units :=
  if u == 0x08 then some (ofText "\\b")
  else if u == 0x09 then some (ofText "\\t")
  else if u == 0x0A then some (ofText "\\n")
  else if u == 0x0C then some (ofText "\\f")
  else if u == 0x0D then some (ofText "\\r")
  else if u == 0x22 then some (ofText "\\\"")
  else if u == 0x5C then some (ofText "\\\\")
  else none

def hexEscape (u : UInt16) : Units :=
  ofChars (['\\', 'u'] ++ [u.toNat / 0x1000, u.toNat / 0x100 % 16, u.toNat / 0x10 % 16,
    u.toNat % 16].map Text.Quoted.hexDigit)

/-- A unit that is no part of a pair, inside of quotes. -/
def quoteUnit (u : UInt16) : Units :=
  (shortEscape? u).getD
    (if u.toNat < 0x20 || Units.isHigh u || Units.isLow u then hexEscape u else [u])

/-- A string inside of quotes. Surrogates that are no pair are escaped. -/
def quoteUnits : Units → Units
  | [] => []
  | [u] => quoteUnit u
  | u :: w :: rest =>
    if Units.isHigh u && Units.isLow w then u :: w :: quoteUnits rest
    else quoteUnit u ++ quoteUnits (w :: rest)

def quote (units : Units) : Units := ofText "\"" ++ quoteUnits units ++ ofText "\""

mutual

def json : Datum → Units
  | .null => ofText "null"
  | .bool b => ofText (if b then "true" else "false")
  | .number n => ofText (toString n)
  | .string units => quote units
  | .array items => ofText "[" ++ (ofText ",").intercalate (jsonItems items) ++ ofText "]"
  | .object entries =>
    let members := jsonEntries entries
    let member (key : Units) : Units := quote key ++ ofText ":" ++ (members.lookup key).getD []
    ofText "\x7b" ++ (ofText ",").intercalate ((order (members.map (·.1))).map member) ++
      ofText "\x7d"

def jsonItems : List Datum → List Units
  | [] => []
  | v :: rest => v.json :: jsonItems rest

def jsonEntries : List (Units × Datum) → List (Units × Units)
  | [] => []
  | (key, v) :: rest => (key, v.json) :: jsonEntries rest

end

/-! ## Constants -/

mutual

/-- A constant as a value of a script. Of a number, the whole part is taken. -/
def of : Value → Datum
  | .null => .null
  | .bool b => .bool b
  | .int n => .number n
  | .double x => .number x.truncate
  | .string s => .string (ofText s)
  | .array items => .array (ofItems items)
  | .object entries => .object (ofEntries entries)

def ofItems : List Value → List Datum
  | [] => []
  | v :: rest => of v :: ofItems rest

def ofEntries : List (String × Value) → List (Units × Datum)
  | [] => []
  | (key, v) :: rest => (ofText key, of v) :: ofEntries rest

end

end Datum
end Script

namespace Value

mutual

/-- The value is one that a script builds from literals and holds as it is: its numbers are whole and
small enough to be exact, and the keys of its objects are different, and are no indices. -/
def isData : Value → Bool
  | .int n => n.natAbs < integerBound
  | .double _ => false
  | .array items => areData items
  | .object entries =>
    decide (entries.map (·.1)).Nodup &&
      (entries.all fun e => (Script.Datum.indexOf? (ofText e.1)).isNone) && holdData entries
  | _ => true

def areData : List Value → Bool
  | [] => true
  | v :: vs => isData v && areData vs

def holdData : List (String × Value) → Bool
  | [] => true
  | (_, v) :: rest => isData v && holdData rest

end

mutual

/-- The value is one that a script holds and goes through as it is: its numbers are whole and small
enough to be exact, and the keys of its objects are different and stand in the order of a loop. -/
def isListed : Value → Bool
  | .int n => n.natAbs < integerBound
  | .double _ => false
  | .array items => areListed items
  | .object entries =>
    let keys := entries.map fun e => ofText e.1
    decide (entries.map (·.1)).Nodup && Script.Datum.order keys == keys && holdListed entries
  | _ => true

def areListed : List Value → Bool
  | [] => true
  | v :: vs => isListed v && areListed vs

def holdListed : List (String × Value) → Bool
  | [] => true
  | (_, v) :: rest => isListed v && holdListed rest

end

mutual

/-- A script can make a string of the value: no object in it hides its method for that. -/
def converts : Value → Bool
  | .array items => allConvert items
  | .object entries => !entries.any fun e => e.1 == "toString"
  | _ => true

def allConvert : List Value → Bool
  | [] => true
  | v :: vs => converts v && allConvert vs

end

/-- The properties of a value: its entries, or its items under their places. -/
def members : Value → List (String × Value)
  | .object entries => entries
  | .array items => items.zipIdx.map fun p => (toString p.2, p.1)
  | _ => []

def isBare : Value → Bool
  | .bool _ => true
  | .int _ => true
  | .double _ => true
  | _ => false

theorem areListed_iff {vs : List Value} : areListed vs ↔ ∀ v ∈ vs, v.isListed := by
  induction vs with
  | nil => simp [areListed]
  | cons v vs ih => simp [areListed, ih]

theorem holdListed_iff {entries : List (String × Value)} :
    holdListed entries ↔ ∀ e ∈ entries, e.2.isListed := by
  induction entries with
  | nil => simp [holdListed]
  | cons e entries ih => simp [holdListed, ih]

theorem isListed_members {v : Value} (hv : v.isListed) : ∀ e ∈ v.members, e.2.isListed := by
  intro e he
  cases v with
  | array items =>
    obtain ⟨p, hp, rfl⟩ := mem_map.mp he
    exact areListed_iff.mp hv p.1 (fst_mem_of_mem_zipIdx hp)
  | object entries => exact holdListed_iff.mp (and_eq_true_iff.mp hv).2 e he
  | _ => cases he

theorem toString_inj {m n : Nat} (h : toString m = toString n) : m = n := by
  have hd : Nat.toDigits 10 m = Nat.toDigits 10 n := by
    rw [← Nat.toList_repr, ← Nat.toList_repr]
    exact congrArg String.toList h
  rw [← Nat.ofDigitChars_toDigits (b := 10) (n := m) (by decide) (by decide), hd,
    Nat.ofDigitChars_toDigits (by decide) (by decide)]

theorem nodup_members {v : Value} (hv : v.isListed) : (v.members.map (·.1)).Nodup := by
  cases v with
  | array items =>
    have hp : (items.zipIdx.map (·.2)).Nodup := by
      rw [zipIdx_map_snd]
      exact nodup_range'
    rw [members, map_map]
    have hm := Nodup.map (fun _ _ heq => toString_inj heq) hp
    rwa [map_map] at hm
  | object entries =>
    exact of_decide_eq_true (and_eq_true_iff.mp (and_eq_true_iff.mp hv).1).1
  | _ => exact nodup_nil

end Value

namespace Script
namespace Datum

/-! ## Strings of constants -/

theorem any_ofEntries (entries : List (String × Value)) (key : String) :
    (ofEntries entries).any (fun e => e.1 == ofText key) = entries.any fun e => e.1 == key := by
  induction entries with
  | nil => rfl
  | cons e entries ih =>
    have hk : (ofText e.1 == ofText key) = (e.1 == key) := by
      rw [Bool.eq_iff_iff, beq_iff_eq, beq_iff_eq, Units.ofText_inj]
    rw [ofEntries, any_cons, any_cons, hk, ih]

/-- Both orders of asking end with the one method that gives a primitive value. -/
theorem primitive_eq (hint : Hint) (entries : List (Units × Datum)) : primitive hint entries =
      if entries.any (fun e => e.1 == ofText "toString") then .error .noPrimitive
      else .ok (ofText "[object Object]") := by
  have hv : primitive? entries .valueOf = none := by
    unfold primitive?
    split <;> rfl
  have hs : primitive? entries .toString =
      if entries.any (fun e => e.1 == ofText "toString") then none
      else some (ofText "[object Object]") := rfl
  unfold primitive
  cases hint with
  | default =>
    rw [Hint.methods, findSome?_cons, hv, findSome?_singleton, hs]
    cases entries.any (fun e => e.1 == ofText "toString") <;> rfl
  | string =>
    rw [Hint.methods, findSome?_cons, hs, findSome?_singleton, hv]
    cases entries.any (fun e => e.1 == ofText "toString") <;> rfl

def itemText : Datum → Run Units
  | .null => .ok []
  | v => v.text .string

theorem itemTexts_cons (v : Datum) (rest : List Datum) : itemTexts (v :: rest) =
      (v.itemText >>= fun first => itemTexts rest >>= fun texts => pure (first :: texts)) := by
  cases v <;> rfl

mutual

theorem text_of (hint : Hint) (v : Value) (hv : v.isListed) :
    (of v).text hint = if v.converts then .ok (ofText v.toText) else .error .noPrimitive := by
  cases v with
  | null => rfl
  | bool b => rfl
  | int n =>
    have hn : n.natAbs < integerBound := by simpa [isListed] using hv
    rw [toText_int hn]
    rfl
  | double x => cases hv
  | string s => rfl
  | array items =>
    rw [of, text, itemTexts_of items hv, converts, toText, Units.ofText_intercalate]
    cases allConvert items <;> rfl
  | object entries =>
    rw [of, text, primitive_eq, any_ofEntries, converts]
    cases entries.any (fun e => e.1 == "toString") <;> rfl

theorem itemTexts_of (vs : List Value) (hvs : areListed vs) : itemTexts (ofItems vs) =
      if Value.allConvert vs then .ok ((Value.itemTexts vs).map ofText) else .error .noPrimitive := by
  cases vs with
  | nil => rfl
  | cons v vs =>
    obtain ⟨hv, hvs⟩ := and_eq_true_iff.mp hvs
    have ht := text_of .string v hv
    have hf : itemText (of v) =
        if v.converts then .ok (ofText v.itemText) else .error .noPrimitive := by
      cases v with
      | null => rfl
      | _ => exact ht
    rw [ofItems, itemTexts_cons, hf, itemTexts_of vs hvs, Value.allConvert, Value.itemTexts_cons]
    cases v.converts <;> cases Value.allConvert vs <;> rfl

end

variable {v : Value} {u : UInt16} {c : Char}

theorem truthy_of (hv : v.isListed) : (of v).truthy = v.truthy := by
  cases v with
  | double x => cases hv
  | string s =>
    show (!(ofText s).isEmpty) = !s.isEmpty
    rw [Bool.eq_iff_iff]
    simp
  | _ => rfl

/-! ## Keys of constants -/

/-- A key may stand before another in a loop: if that is an index, both are, and it is not less. -/
def Precedes (a b : Units) : Prop := ∀ j ∈ indexOf? b, ∃ i ∈ indexOf? a, i ≤ j

theorem filter_append_filter {keys : List Units} (h : keys.Pairwise Precedes) :
    (keys.filter fun key => (indexOf? key).isSome) ++
      (keys.filter fun key => (indexOf? key).isNone) = keys := by
  induction keys with
  | nil => rfl
  | cons key keys ih =>
    obtain ⟨hke, hk⟩ := pairwise_cons.mp h
    cases hin : indexOf? key with
    | some i => simp [hin, ih hk]
    | none =>
      -- behind a key that is no index there is none
      have hn : ∀ b ∈ keys, indexOf? b = none := by
        intro b hb
        refine Option.eq_none_iff_forall_ne_some.mpr fun j hj => ?_
        obtain ⟨i, hi, -⟩ := hke b hb j hj
        rw [hin] at hi
        cases hi
      rw [filter_eq_nil_iff.mpr (by simpa [hin] using hn),
        filter_eq_self.mpr (by simpa [hin] using hn), nil_append]

/-- **The order of a loop** is that of the keys if indices stand first and rise. -/
theorem order_eq_iff (keys : List Units) : order keys = keys ↔ keys.Pairwise Precedes := by
  have hin : ∀ a ∈ keys.filter fun key => (indexOf? key).isSome, ∃ i, indexOf? a = some i :=
    fun a ha => Option.isSome_iff_exists.mp (mem_filter.mp ha).2
  have ho (a : Units) : ∀ b ∈ keys.filter fun key => (indexOf? key).isNone, Precedes a b := by
    intro b hb j hj
    rw [Option.isNone_iff_eq_none.mp (mem_filter.mp hb).2] at hj
    cases hj
  constructor
  · intro h
    rw [← h, order, pairwise_append]
    refine ⟨?_, pairwise_of_forall_mem_list fun a _ => ho a, fun a _ => ho a⟩
    refine (pairwise_mergeSort (by simpa using fun _ _ _ => Nat.le_trans)
      (by simpa using fun _ _ => Nat.le_total ..) _).imp_of_mem fun {a b} ha _ hl j hj => ?_
    obtain ⟨i, hi⟩ := hin a (mem_mergeSort.mp ha)
    exact ⟨i, hi, by simpa [hi, Option.mem_def.mp hj] using hl⟩
  · intro h
    rw [order, mergeSort_of_pairwise, filter_append_filter h]
    refine (h.filter _).imp_of_mem fun {a b} _ hb hl => ?_
    obtain ⟨j, hj⟩ := hin b hb
    obtain ⟨i, hi, hij⟩ := hl j hj
    simpa [hj, Option.mem_def.mp hi] using hij

mutual

theorem isListed_of_isData (v : Value) (hv : v.isData) : v.isListed := by
  cases v with
  | array items => exact areListed_of_areData items hv
  | object entries =>
    obtain ⟨hk, hh⟩ := and_eq_true_iff.mp hv
    obtain ⟨hno, hi⟩ := and_eq_true_iff.mp hk
    have hp : (entries.map fun e => ofText e.1).Pairwise Precedes := by
      refine pairwise_of_forall_mem_list fun a _ b hb j hj => ?_
      obtain ⟨e, he, rfl⟩ := mem_map.mp hb
      have hn := all_eq_true.mp hi e he
      rw [Option.mem_def.mp hj] at hn
      cases hn
    exact and_eq_true_iff.mpr ⟨and_eq_true_iff.mpr
      ⟨hno, beq_iff_eq.mpr ((order_eq_iff _).mpr hp)⟩, holdListed_of_holdData entries hh⟩
  | _ => exact hv

theorem areListed_of_areData (vs : List Value) (hvs : areData vs) : areListed vs := by
  cases vs with
  | nil => rfl
  | cons v vs =>
    obtain ⟨hv, hvs⟩ := and_eq_true_iff.mp hvs
    exact and_eq_true_iff.mpr ⟨isListed_of_isData v hv, areListed_of_areData vs hvs⟩

theorem holdListed_of_holdData (entries : List (String × Value)) (h : holdData entries) :
    holdListed entries := by
  cases entries with
  | nil => rfl
  | cons e entries =>
    obtain ⟨hv, h⟩ := and_eq_true_iff.mp h
    exact and_eq_true_iff.mpr ⟨isListed_of_isData e.2 hv, holdListed_of_holdData entries h⟩

end

theorem lookup_of_mem {α β : Type} [BEq α] [LawfulBEq α] {l : List (α × β)}
    (hn : (l.map (·.1)).Nodup) {p : α × β} (hp : p ∈ l) : l.lookup p.1 = some p.2 := by
  induction l with
  | nil => cases hp
  | cons q l ih =>
    obtain ⟨hq, hn⟩ := nodup_cons.mp hn
    rcases mem_cons.mp hp with rfl | hp
    · exact lookup_cons_self
    · have hne : (p.1 == q.1) = false := by
        rw [beq_eq_false_iff_ne]
        intro heq
        exact hq (mem_map.mpr ⟨p, hp, heq⟩)
      rw [lookup_cons, hne]
      exact ih hn hp

/-- A property of a value holds a constant. -/
structure Has (v : Datum) (key : String) (w : Value) : Prop where
  get : v.get? (ofText key) = some (of w)
  own : v.hasOwn (ofText key) = true
  data : w.isListed = true

theorem ofEntries_eq_map (entries : List (String × Value)) :
    ofEntries entries = entries.map fun e => (ofText e.1, of e.2) := by
  induction entries with
  | nil => rfl
  | cons e entries ih => rw [ofEntries, ih, map_cons]

theorem ofItems_eq_map (items : List Value) : ofItems items = items.map of := by
  induction items with
  | nil => rfl
  | cons v items ih => rw [ofItems, ih, map_cons]

theorem nodup_ofText {keys : List String} (h : keys.Nodup) : (keys.map ofText).Nodup :=
  Nodup.map (fun _ _ heq => Units.ofText_inj.mp heq) h

theorem properties_of (v : Value) :
    (of v).properties = v.members.map fun e => (ofText e.1, of e.2) := by
  cases v with
  | array items =>
    rw [of, properties, ofItems_eq_map, zipIdx_map, map_map, members, map_map]
    rfl
  | object entries => exact ofEntries_eq_map entries
  | _ => rfl

theorem has_of (hv : v.isListed) {e : String × Value} (he : e ∈ v.members) :
    (of v).Has e.1 e.2 := by
  have hm : (ofText e.1, of e.2) ∈ (of v).properties := by
    rw [properties_of]
    exact mem_map.mpr ⟨e, he, rfl⟩
  have hn : ((of v).properties.map (·.1)).Nodup := by
    have hma := nodup_ofText (nodup_members hv)
    rw [properties_of, map_map]
    rwa [map_map] at hma
  refine ⟨lookup_of_mem hn hm, ?_, isListed_members hv e he⟩
  exact any_eq_true.mpr ⟨_, hm, beq_self_eq_true _⟩

theorem keys_of (hv : v.isListed) : (of v).keys = v.members.map fun e => ofText e.1 := by
  have hk : (of v).properties.map (·.1) = v.members.map fun e => ofText e.1 := by
    rw [properties_of, map_map]
    rfl
  cases v with
  | array items => exact hk
  | object entries =>
    refine Eq.trans (congrArg order hk) ?_
    exact beq_iff_eq.mp (and_eq_true_iff.mp (and_eq_true_iff.mp hv).1).2
  | _ => rfl

/-! ## Data files -/

theorem quoteUnit_ascii : ∀ n < 128,
    quoteUnit (UInt16.ofNat n) = ofChars (Text.Quoted.plainEscape (Char.ofNat n)) := by
  decide +kernel

/-- Beyond the first characters, only surrogates are escaped. -/
theorem quoteUnit_of_le (hu : 128 ≤ u.toNat) (hh : Units.isHigh u = false)
    (hl : Units.isLow u = false) : quoteUnit u = [u] := by
  have hn (w : UInt16) (hw : w.toNat < 128) : (u == w) = false := by
    rw [beq_eq_false_iff_ne]
    rintro rfl
    omega
  have hs : ¬u.toNat < 0x20 := by omega
  simp only [quoteUnit, shortEscape?, hn 0x08 (by decide), hn 0x09 (by decide),
    hn 0x0A (by decide), hn 0x0C (by decide), hn 0x0D (by decide), hn 0x22 (by decide),
    hn 0x5C (by decide), hh, hl, hs]
  rfl

theorem plainEscape_of_le (hc : 128 ≤ c.toNat) : Text.Quoted.plainEscape c = [c] := by
  have hn (a : Char) (ha : a.toNat < 128) : (c == a) = false := by
    rw [beq_eq_false_iff_ne]
    rintro rfl
    omega
  have hs : ¬c.toNat < 0x20 := by omega
  simp only [Text.Quoted.plainEscape, hn '"' (by decide), hn '\\' (by decide),
    hn '\n' (by decide), hn '\r' (by decide), hn '\t' (by decide), hn '\x08' (by decide),
    hn '\x0c' (by decide), hs]
  rfl

theorem quoteUnits_cons (hh : Units.isHigh u = false) (rest : Units) :
    quoteUnits (u :: rest) = quoteUnit u ++ quoteUnits rest := by
  cases rest with
  | nil => simp [quoteUnits]
  | cons w rest => rw [quoteUnits, hh, Bool.false_and, if_neg Bool.false_ne_true]

theorem quoteUnits_form {us : Units} (h : Units.Form c us) (hus : Units.ofChar c = us)
    (rest : Units) :
    quoteUnits (us ++ rest) = ofChars (Text.Quoted.plainEscape c) ++ quoteUnits rest := by
  cases h with
  | single hu hh hl =>
    rw [singleton_append, quoteUnits_cons hh]
    congr 1
    by_cases hc : c.toNat < 128
    · have ha := quoteUnit_ascii c.toNat hc
      rwa [Char.ofNat_toNat, ← hu, UInt16.ofNat_toNat] at ha
    · have hle := Nat.le_of_not_lt hc
      rw [quoteUnit_of_le (hu ▸ hle) hh hl, plainEscape_of_le hle, Units.ofChars_cons, hus]
      rfl
  | pair hh hl hun =>
    have hle : 128 ≤ c.toNat := by omega
    rw [plainEscape_of_le hle, Units.ofChars_cons, hus, cons_append, singleton_append,
      quoteUnits, hh, hl]
    rfl

theorem quoteUnits_ofChars (cs : List Char) :
    quoteUnits (ofChars cs) = ofChars (cs.flatMap Text.Quoted.plainEscape) := by
  induction cs with
  | nil => rfl
  | cons c cs ih =>
    rw [Units.ofChars_cons, quoteUnits_form (Units.form_ofChar c) rfl, ih, flatMap_cons,
      Units.ofChars_append]

theorem quote_ofText (s : String) :
    quote (ofText s) = ofText (Text.Quoted.quote Text.Quoted.plainEscape s) := by
  have hb : quoteUnits (ofText s) = ofChars (s.toList.flatMap Text.Quoted.plainEscape) :=
    quoteUnits_ofChars s.toList
  rw [quote, hb]
  simp [Text.Quoted.quote, ofText]

theorem writeEntries_eq_map (entries : List (String × Value)) :
    Value.writeEntries Text.Quoted.plainEscape entries = entries.map fun e =>
      Text.Quoted.quote Text.Quoted.plainEscape e.1 ++ ":" ++ e.2.json := by
  induction entries with
  | nil => rfl
  | cons e entries ih => rw [writeEntries, ih, map_cons, Value.json]

theorem map_member {entries : List (String × Value)} {members : List (Units × Units)}
    (hm : members = entries.map fun e => (ofText e.1, ofText e.2.json))
    (hk : (entries.map (·.1)).Nodup) :
    (members.map (·.1)).map (fun key => quote key ++ ofText ":" ++ (members.lookup key).getD []) =
      (writeEntries Text.Quoted.plainEscape entries).map ofText := by
  subst hm
  have hn : ((entries.map fun e => (ofText e.1, ofText e.2.json)).map (·.1)).Nodup := by
    have hma := nodup_ofText hk
    rw [map_map]
    rwa [map_map] at hma
  rw [writeEntries_eq_map, map_map, map_map, map_map]
  refine map_congr_left fun e he => ?_
  have hl := lookup_of_mem hn (mem_map.mpr ⟨e, he, rfl⟩)
  simp [hl, quote_ofText]

mutual

theorem json_of (v : Value) (hv : v.isListed) : (of v).json = ofText v.json := by
  cases v with
  | null => rfl
  | bool b => rfl
  | int n => rfl
  | double x => cases hv
  | string s => exact quote_ofText s
  | array items =>
    rw [of, json, jsonItems_of items hv, Value.json, Value.write, Units.ofText_append,
      Units.ofText_append, Units.ofText_intercalate]
  | object entries =>
    obtain ⟨hk, hh⟩ := and_eq_true_iff.mp hv
    obtain ⟨hn, hi⟩ := and_eq_true_iff.mp hk
    have hm := jsonEntries_of entries hh
    have ho : order ((jsonEntries (ofEntries entries)).map (·.1)) =
        (jsonEntries (ofEntries entries)).map (·.1) := by
      rw [hm, map_map]
      exact beq_iff_eq.mp hi
    rw [of, json, ho, map_member hm (of_decide_eq_true hn), Value.json, Value.write,
      Units.ofText_append, Units.ofText_append, Units.ofText_intercalate]

theorem jsonItems_of (vs : List Value) (hvs : areListed vs) :
    jsonItems (ofItems vs) = (writeItems Text.Quoted.plainEscape vs).map ofText := by
  cases vs with
  | nil => rfl
  | cons v vs =>
    obtain ⟨hv, hvs⟩ := and_eq_true_iff.mp hvs
    rw [ofItems, jsonItems, json_of v hv, jsonItems_of vs hvs]
    rfl

theorem jsonEntries_of (entries : List (String × Value)) (h : holdListed entries) :
    jsonEntries (ofEntries entries) = entries.map fun e => (ofText e.1, ofText e.2.json) := by
  cases entries with
  | nil => rfl
  | cons e entries =>
    obtain ⟨key, v⟩ := e
    obtain ⟨hv, h⟩ := and_eq_true_iff.mp h
    rw [ofEntries, jsonEntries, json_of v hv, jsonEntries_of entries h]
    rfl

end

end Datum
end Script
end PugTemplate
