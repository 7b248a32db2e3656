import PugTemplate.Proofs.Script.ClassHelpers
import PugTemplate.Proofs.Script.Data
/-!
# The helpers of a program

What the helpers `escape`, `classes`, `style` and `attr` compute, in the steps of their sources and on
the values of a script: with indices into strings of units, loops over keys, and a padding that is
empty before the first name. On a constant they give what is written for it beforehand, unless they
need the string of an object that has none.
-/

namespace PugTemplate

open List Markup Value

open Script.Units (ofText ofChars)

namespace Script
namespace Runtime

/-! ## The helpers -/

def entity? (u : UInt16) : Option Units :=
  if u == 34 then some (ofText "&quot;")
  else if u == 38 then some (ofText "&amp;")
  else if u == 60 then some (ofText "&lt;")
  else if u == 62 then some (ofText "&gt;")
  else none

def substring (html : Units) (start stop : Nat) : Units :=
  (html.take (max start stop)).drop (min start stop)

/-- The loop of the helper for escaping: `lastIndex` is where the units start that have not been
copied yet. -/
def escapeLoop (html : Units) (i lastIndex : Nat) (result : Units) : Units :=
  if h : i < html.length then
    match entity? html[i] with
    | none => escapeLoop html (i + 1) lastIndex result
    | some entity =>
      let result := if lastIndex != i then result ++ substring html lastIndex i else result
      escapeLoop html (i + 1) (i + 1) (result ++ entity)
  else if lastIndex != i then result ++ substring html lastIndex i
  else result
termination_by html.length - i

/-- What the helper `escape` makes of a value and its string. A value that has nothing to escape is
given back as it is. -/
def escaped (v : Datum) (html : Units) : Datum :=
  match html.findIdx? fun u => (entity? u).isSome with
  | none => v
  | some index => .string (escapeLoop html index 0 [])

/-- The helper `escape`. -/
def escape (v : Datum) : Run Datum := do
  let html ← v.text .default
  pure (escaped v html)

/-- The names that a loop has joined, and what it puts in front of the next one. -/
structure Joined where
  names : Units := []
  padding : Units := []

def Joined.add (j : Joined) (name : Units) : Joined := ⟨j.names ++ j.padding ++ name, ofText " "⟩

/-- The loop of the helper for the classes of an object. -/
def classesObject (v : Datum) : List Units → Joined → Joined
  | [], j => j
  | key :: keys, j =>
    if !key.isEmpty && (v.get? key).any Datum.truthy && v.hasOwn key then
      classesObject v keys (j.add key)
    else classesObject v keys j

/-- A list of flags tells that an item is escaped. -/
def isFlagged (escaping : Option Datum) (i : Nat) : Bool :=
  match escaping with
  | some (.array flags) => flags[i]?.any Datum.truthy
  | _ => false

/-- The string of a name, which is escaped if its flag says so. -/
def nameText (flag : Bool) (name : Datum) : Run Units := do
  let name ← (if flag then escape name else pure name)
  name.text .default

mutual

/-- The helper `classes`. Flags count for the items of an array only. -/
def classes : Datum → Option Datum → Run Datum
  | .array items, escaping => do
    let j ← classesArray items escaping 0 {}
    pure (.string j.names)
  | .object entries, _ =>
    .ok (.string (classesObject (.object entries) (Datum.keys (.object entries)) {}).names)
  | v, _ => .ok (if v.truthy then v else .string [])

/-- The loop of the helper for the classes of an array, from the item at a place on. -/
def classesArray : List Datum → Option Datum → Nat → Joined → Run Joined
  | [], _, _, j => .ok j
  | v :: vs, escaping, i, j => do
    let name ← classes v none
    if !name.truthy then classesArray vs escaping (i + 1) j
    else
      let text ← nameText (isFlagged escaping i) name
      classesArray vs escaping (i + 1) (j.add text)

end

/-- The string of a property, which may be missing. -/
def propertyText : Option Datum → Run Units
  | none => .ok (ofText "undefined")
  | some v => v.text .default

def styleLoop (v : Datum) : List Units → Units → Run Units
  | [], out => .ok out
  | key :: keys, out =>
    if v.hasOwn key then do
      let text ← propertyText (v.get? key)
      styleLoop v keys (out ++ key ++ ofText ":" ++ text ++ ofText ";")
    else styleLoop v keys out

/-- The helper `style`. -/
def style (v : Datum) : Run Units :=
  if !v.truthy then .ok []
  else
    match v with
    | .array items => styleLoop (.array items) (Datum.keys (.array items)) []
    | .object entries => styleLoop (.object entries) (Datum.keys (.object entries)) []
    | v => do
      let text ← v.text .default
      pure (if text.getLast? != some 59 then text ++ ofText ";" else text)

/-- The end of the helper `attr`. -/
def attrText (key text : Units) (escaped : Bool) : Run Units := do
  let text ← nameText escaped (.string text)
  pure (ofText " " ++ key ++ ofText "=\"" ++ text ++ ofText "\"")

def isMissing : Datum → Bool
  | .null => true
  | .bool b => !b
  | _ => false

/-- How the helper `attr` writes a unit between single quotes. -/
def betweenQuotes (u : UInt16) : Units := if u == 39 then ofText "&#39;" else [u]

/-- The helper `attr`. No property of these values is a function, so there is no `toJSON` to call. -/
def attr (key : Units) (v : Datum) (escaped terse : Bool) : Run Units :=
  if isMissing v || !v.truthy && (key == ofText "class" || key == ofText "style") then .ok []
  else
    match v with
    | .bool _ =>
      .ok (ofText " " ++ if terse then key else key ++ ofText "=\"" ++ key ++ ofText "\"")
    | .string text => attrText key text escaped
    | v =>
      if !escaped && v.json.contains 34 then
        .ok (ofText " " ++ key ++ ofText "='" ++ v.json.flatMap betweenQuotes ++ ofText "'")
      else attrText key v.json escaped

/-! ## Escaping -/

def replace (u : UInt16) : Units := (entity? u).getD [u]

variable {html : Units} {v w : Value} {flags : List Bool} {escaping : Option Datum}

theorem substring_of_le {start stop : Nat} (h : start ≤ stop) :
    substring html start stop = (html.take stop).drop start := by
  rw [substring, Nat.max_eq_right h, Nat.min_eq_left h]

theorem substring_self (html : Units) (i : Nat) : substring html i i = [] :=
  drop_eq_nil_of_le (length_take_le ..)

theorem append_substring (html result : Units) (start stop : Nat) :
    (if start != stop then result ++ substring html start stop else result) =
      result ++ substring html start stop := by
  split
  · rfl
  · next h =>
    obtain rfl : start = stop := by simpa using h
    rw [substring_self, append_nil]

theorem escapeLoop_eq (html : Units) (i lastIndex : Nat) (result : Units) (hl : lastIndex ≤ i)
    (hi : i ≤ html.length) :
    escapeLoop html i lastIndex result =
      result ++ substring html lastIndex i ++ (html.drop i).flatMap replace := by
  fun_induction escapeLoop html i lastIndex result with
  | case1 i lastIndex result h hn ih =>
    have hr : replace html[i] = [html[i]] := by rw [replace, hn]; rfl
    have hsu : substring html lastIndex (i + 1) = substring html lastIndex i ++ [html[i]] := by
      rw [substring_of_le hl, substring_of_le (Nat.le_succ_of_le hl), take_add_one,
        getElem?_eq_getElem h]
      exact drop_append_of_le_length (by rw [length_take]; omega)
    rw [ih (Nat.le_succ_of_le hl) h, hsu, drop_eq_getElem_cons h, flatMap_cons, hr]
    simp only [append_assoc]
  | case2 i lastIndex result h entity hs copied ih =>
    have hr : replace html[i] = entity := by rw [replace, hs]; rfl
    rw [ih (Nat.le_refl _) h, substring_self, append_nil, drop_eq_getElem_cons h,
      flatMap_cons, hr, ← append_assoc]
    exact congrArg (· ++ entity ++ _) (append_substring html result lastIndex i)
  | case3 i lastIndex result h hne =>
    rw [drop_eq_nil_of_le (Nat.le_of_not_lt h)]
    simp
  | case4 i lastIndex result h hne =>
    obtain rfl : lastIndex = i := by simpa using hne
    rw [drop_eq_nil_of_le (Nat.le_of_not_lt h), substring_self]
    simp

theorem flatMap_replace_of_ordinary {us : Units} (h : ∀ u ∈ us, (entity? u).isSome = false) :
    us.flatMap replace = us := by
  refine Units.flatMap_eq_self fun u hu => ?_
  have hn : entity? u = none := by simpa using h u hu
  rw [replace, hn]
  rfl

theorem escapeLoop_of_findIdx? {index : Nat}
    (h : html.findIdx? (fun u => (entity? u).isSome) = some index) :
    escapeLoop html index 0 [] = html.flatMap replace := by
  obtain ⟨hi, -, hb⟩ := findIdx?_eq_some_iff_getElem.mp h
  have hf : (html.take index).flatMap replace = html.take index := by
    refine flatMap_replace_of_ordinary fun u hu => ?_
    obtain ⟨j, hj, rfl⟩ := mem_take_iff_getElem.mp hu
    exact Bool.eq_false_iff.mpr (hb j (by omega))
  rw [escapeLoop_eq html index 0 [] (Nat.zero_le _) (Nat.le_of_lt hi),
    substring_of_le (Nat.zero_le _), drop_zero, nil_append]
  conv_rhs => rw [← take_append_drop index html, flatMap_append, hf]

theorem isSome_entity?_of_mem {c : Char} {u : UInt16} (hu : u ∈ Units.ofChar c) :
    (entity? u).isSome → isSpecial c := by
  intro hs
  have hc : u = 34 ∨ u = 38 ∨ u = 60 ∨ u = 62 := by
    unfold entity? at hs
    simp only [beq_iff_eq] at hs
    split at hs
    · exact .inl ‹_›
    · split at hs
      · exact .inr (.inl ‹_›)
      · split at hs
        · exact .inr (.inr (.inl ‹_›))
        · split at hs
          · exact .inr (.inr (.inr ‹_›))
          · cases hs
  rcases hc with rfl | rfl | rfl | rfl
  · rw [(Units.mem_ofChar (a := '"') (by decide)).mp hu]
    rfl
  · rw [(Units.mem_ofChar (a := '&') (by decide)).mp hu]
    rfl
  · rw [(Units.mem_ofChar (a := '<') (by decide)).mp hu]
    rfl
  · rw [(Units.mem_ofChar (a := '>') (by decide)).mp hu]
    rfl

theorem flatMap_replace_ofChar (c : Char) :
    (Units.ofChar c).flatMap replace = ofChars (Markup.escapeChar c) := by
  cases hs : isSpecial c with
  | true =>
    simp only [isSpecial, Bool.or_eq_true, beq_iff_eq] at hs
    rcases hs with ((rfl | rfl) | rfl) | rfl <;> rfl
  | false =>
    have ho : ∀ u ∈ Units.ofChar c, (entity? u).isSome = false := by
      intro u hu
      refine Bool.eq_false_iff.mpr fun hso => ?_
      have hs' := isSome_entity?_of_mem hu hso
      rw [hs] at hs'
      cases hs'
    rw [flatMap_replace_of_ordinary ho, escapeChar_of_ordinary hs]
    simp

theorem flatMap_replace_ofText (s : String) :
    (ofText s).flatMap replace = ofText (Markup.escape s) := by
  rw [ofText, Units.flatMap_ofChars flatMap_replace_ofChar, ofText, toList_escape]
  rfl

theorem any_entity? (s : String) :
    (ofText s).any (fun u => (entity? u).isSome) = s.toList.any Markup.isSpecial := by
  rw [Bool.eq_iff_iff, any_eq_true, any_eq_true]
  constructor
  · rintro ⟨u, hu, hso⟩
    obtain ⟨c, hc, hu⟩ := List.mem_flatMap.mp hu
    exact ⟨c, hc, isSome_entity?_of_mem hu hso⟩
  · rintro ⟨c, hc, hs⟩
    have hun : ∃ u ∈ Units.ofChar c, (entity? u).isSome := by
      simp only [isSpecial, Bool.or_eq_true, beq_iff_eq] at hs
      rcases hs with ((rfl | rfl) | rfl) | rfl
      · exact ⟨34, by decide, rfl⟩
      · exact ⟨38, by decide, rfl⟩
      · exact ⟨60, by decide, rfl⟩
      · exact ⟨62, by decide, rfl⟩
    obtain ⟨u, hu, hso⟩ := hun
    exact ⟨u, List.mem_flatMap.mpr ⟨c, hc, hu⟩, hso⟩

theorem escaped_ofText (v : Datum) (s : String) : escaped v (ofText s) =
      if s.toList.any Markup.isSpecial then .string (ofText (Markup.escape s)) else v := by
  unfold escaped
  rw [← any_entity?]
  cases hi : (ofText s).findIdx? fun u => (entity? u).isSome with
  | none =>
    have hn : (ofText s).any (fun u => (entity? u).isSome) = false := by
      rw [findIdx?_eq_none_iff] at hi
      exact List.any_eq_false.mpr fun u hu => Bool.eq_false_iff.mp (hi u hu)
    rw [hn, if_neg Bool.false_ne_true]
  | some index =>
    have hs : (ofText s).any (fun u => (entity? u).isSome) = true := by
      obtain ⟨hl, hen, -⟩ := List.findIdx?_eq_some_iff_getElem.mp hi
      exact List.any_eq_true.mpr ⟨_, getElem_mem hl, hen⟩
    rw [hs, if_pos rfl, ← flatMap_replace_ofText, ← escapeLoop_of_findIdx? hi]

theorem escape_string (s : String) :
    escape (.string (ofText s)) = .ok (.string (ofText (Markup.escape s))) := by
  show Except.ok (escaped _ (ofText s)) = _
  rw [escaped_ofText]
  split
  · rfl
  · next hn =>
    rw [← (eq_escape_iff s).mpr (by simpa using hn)]

theorem escapeValue_eq (v : Value) : Markup.escapeValue v =
      if v.toText.toList.any Markup.isSpecial then .string (Markup.escape v.toText) else v := by
  cases v with
  | string s =>
    show string (Markup.escape s) = _
    rw [toText]
    split
    · rfl
    · next hn => rw [← (eq_escape_iff s).mpr (by simpa using hn)]
  | _ => rfl

/-- **The helper `escape`** on a constant. -/
theorem escape_of (hv : v.isListed) : escape (Datum.of v) =
      if v.converts then .ok (Datum.of (Markup.escapeValue v)) else .error .noPrimitive := by
  rw [escape, Datum.text_of .default v hv]
  cases v.converts with
  | false => rfl
  | true =>
    show Except.ok (escaped (Datum.of v) (ofText v.toText)) = .ok (Datum.of (escapeValue v))
    rw [escaped_ofText, escapeValue_eq]
    split <;> rfl

/-! ## Class names -/

/-- Names that have been joined for constants. -/
def Joined.of (j : Helpers.Joined) : Joined := ⟨ofText j.names, ofText j.padding⟩

theorem Joined.of_add (j : Helpers.Joined) (name : String) :
    Joined.of (j.add name) = (Joined.of j).add (ofText name) := by
  simp [of, Helpers.Joined.add, add]

theorem classesObject_of {v : Datum} (entries : List (String × Value))
    (hen : ∀ e ∈ entries, v.Has e.1 e.2) (j : Helpers.Joined) :
    classesObject v (entries.map fun e => ofText e.1) (Joined.of j) =
      Joined.of (Helpers.classesObject entries j) := by
  induction entries generalizing j with
  | nil => rfl
  | cons e entries ih =>
    obtain ⟨key, w⟩ := e
    obtain ⟨hh, hr⟩ := List.forall_mem_cons.mp hen
    have hem : (ofText key).isEmpty = key.isEmpty := by
      rw [Bool.eq_iff_iff]
      simp
    have ht : (!(ofText key).isEmpty && (v.get? (ofText key)).any Datum.truthy &&
        v.hasOwn (ofText key)) = (!key.isEmpty && w.truthy) := by
      rw [hh.get, hh.own, hem, Option.any_some, Datum.truthy_of hh.data, Bool.and_true]
    rw [map_cons, classesObject, ht, Helpers.classesObject]
    split
    · rw [← Joined.of_add]
      exact ih hr _
    · exact ih hr j

theorem isListed_classes (hv : v.isListed) :
    (Helpers.classes v).isListed ∧ (Helpers.classes v).converts := by
  cases v with
  | array items | object entries => exact ⟨rfl, rfl⟩
  | _ =>
    unfold Helpers.classes
    split
    · exact ⟨hv, rfl⟩
    · exact ⟨rfl, rfl⟩

theorem escape_eq_escapeValue (v : Value) : Helpers.escape v = Markup.escapeValue v := by
  have hs : (fun c => (Helpers.entity? c).isSome) = isSpecial :=
    funext Helpers.isSome_entity?
  have hl : Helpers.escapeLoop v.toText.toList "" = Markup.escape v.toText := by
    rw [← String.toList_inj, Helpers.toList_escapeLoop, toList_escape]
    rfl
  rw [escapeValue_eq, Helpers.escape, hs, hl]

theorem isListed_escapeValue (hw : w.isListed ∧ w.converts) :
    (Markup.escapeValue w).isListed ∧ (Markup.escapeValue w).converts := by
  rw [escapeValue_eq]
  split
  · exact ⟨rfl, rfl⟩
  · exact hw

theorem nameText_of (hw : w.isListed ∧ w.converts) (flag : Bool) :
    nameText flag (Datum.of w) = .ok (ofText (if flag then Helpers.escape w else w).toText) := by
  have ht {u : Value} (hu : u.isListed ∧ u.converts) :
      (Datum.of u).text .default = .ok (ofText u.toText) := by
    rw [Datum.text_of .default u hu.1, if_pos hu.2]
  cases flag with
  | true =>
    rw [nameText, escape_of hw.1, if_pos hw.2, escape_eq_escapeValue]
    exact ht (isListed_escapeValue hw)
  | false => exact ht hw

mutual

/-- **The helper `classes`** on a constant, without flags. -/
theorem classes_of (v : Value) (hv : v.isListed) :
    classes (Datum.of v) none = .ok (Datum.of (Helpers.classes v)) := by
  have hs : (if (Datum.of v).truthy then Datum.of v else .string []) =
      Datum.of (if v.truthy then v else .string "") := by
    rw [Datum.truthy_of hv]
    split <;> rfl
  cases v with
  | array items =>
    have hi := classesArray_of items none [] 0 hv (fun _ => rfl) {}
    show (classesArray (Datum.ofItems items) none 0 (Joined.of {}) >>= fun j =>
      pure (Datum.string j.names)) = _
    rw [hi]
    rfl
  | object entries =>
    have hl := classesObject_of entries (fun e he => Datum.has_of hv he) {}
    have hk := Datum.keys_of hv
    show Except.ok (Datum.string (classesObject (Datum.of (.object entries))
      (Datum.of (.object entries)).keys (Joined.of {})).names) = _
    rw [hk]
    exact congrArg (fun j : Joined => Except.ok (Datum.string j.names)) hl
  | double x => cases hv
  | _ => exact congrArg Except.ok hs

theorem classesArray_of (vs : List Value) (escaping : Option Datum) (flags : List Bool) (i : Nat)
    (hvs : Value.areListed vs)
    (hf : ∀ k, isFlagged escaping (i + k) = flags.getD k false) (j : Helpers.Joined) :
    classesArray (Datum.ofItems vs) escaping i (Joined.of j) =
      .ok (Joined.of (Helpers.classesArray vs flags j)) := by
  cases vs with
  | nil => rfl
  | cons v vs =>
    obtain ⟨hv, hvs⟩ := Bool.and_eq_true_iff.mp hvs
    have hna := isListed_classes hv
    have hfl : isFlagged escaping i = flags.headD false := by
      have hz := hf 0
      cases flags <;> simpa using hz
    have ht (k : Nat) : isFlagged escaping (i + 1 + k) = flags.tail.getD k false := by
      have hn := hf (1 + k)
      rw [← Nat.add_assoc] at hn
      cases flags with
      | nil => simpa using hn
      | cons flag flags =>
        rw [hn, Nat.add_comm]
        rfl
    have hte := nameText_of hna (flags.headD false)
    rw [Datum.ofItems, classesArray, classes_of v hv, Helpers.classesArray]
    show (if !(Datum.of (Helpers.classes v)).truthy then
        classesArray (Datum.ofItems vs) escaping (i + 1) (Joined.of j)
      else nameText (isFlagged escaping i) (Datum.of (Helpers.classes v)) >>= fun text =>
        classesArray (Datum.ofItems vs) escaping (i + 1) ((Joined.of j).add text)) = _
    rw [Datum.truthy_of hna.1]
    cases (Helpers.classes v).truthy with
    | false => exact classesArray_of vs escaping flags.tail (i + 1) hvs ht j
    | true =>
      rw [hfl, hte]
      show classesArray _ escaping (i + 1) ((Joined.of j).add (ofText _)) = _
      rw [← Joined.of_add]
      exact classesArray_of vs escaping flags.tail (i + 1) hvs ht (j.add _)

end

mutual

theorem isWhole_of_isListed (v : Value) (hv : v.isListed) : v.isWhole := by
  cases v with
  | array items => exact areWhole_of_areListed items hv
  | int n => exact hv
  | double x => cases hv
  | _ => rfl

theorem areWhole_of_areListed (vs : List Value) (hvs : Value.areListed vs) : Value.areWhole vs := by
  cases vs with
  | nil => rfl
  | cons v vs =>
    obtain ⟨hv, hvs⟩ := Bool.and_eq_true_iff.mp hvs
    exact Bool.and_eq_true_iff.mpr ⟨isWhole_of_isListed v hv, areWhole_of_areListed vs hvs⟩

end

/-- The class names of a constant, as the string of what the helper gives. -/
theorem toText_classes (hv : v.isListed) : (Helpers.classes v).toText = Markup.classNames v := by
  have hn := Helpers.classes_spec v (isWhole_of_isListed v hv)
  cases ht : (Helpers.classes v).truthy with
  | true => exact hn.text ht
  | false =>
    have hs {s : String} (h : (string s).truthy = false) : string s = .string "" := by
      rw [show s = "" by simpa [truthy] using h]
    -- the helper gives nothing that is not true but the empty string
    have hem : Helpers.classes v = .string "" := by
      cases v with
      | array items | object entries => exact hs ht
      | _ =>
        unfold Helpers.classes at ht ⊢
        split
        · next htr => rw [if_pos htr, htr] at ht; cases ht
        · rfl
    have hna : classNames v = "" := by simpa [ht] using hn.truthy.symm
    rw [hem, hna]
    rfl

def flagList (flags : List Bool) : Datum := .array (flags.map .bool)

theorem isFlagged_flagList (flags : List Bool) (i : Nat) :
    isFlagged (some (flagList flags)) i = flags.getD i false := by
  show ((flags.map Datum.bool)[i]?).any Datum.truthy = _
  rw [getElem?_map, getD_eq_getElem?_getD]
  cases flags[i]? with
  | none => rfl
  | some flag => rfl

theorem classes_of_array {items : List Value} (hi : Value.areListed items)
    (hf : ∀ i, isFlagged escaping i = flags.getD i false) :
    classes (Datum.of (.array items)) escaping =
      .ok (.string (ofText (Markup.classes (.array items) flags))) := by
  have hl := classesArray_of items escaping flags 0 hi (by simpa using hf) {}
  have hn := Helpers.names_classesArray (areWhole_of_areListed items hi) flags
  show (classesArray (Datum.ofItems items) escaping 0 (Joined.of {}) >>= fun j =>
    pure (Datum.string j.names)) = _
  rw [hl, ← hn]
  rfl

/-- **The helper `classes`** gives the text of a class attribute, but for a boolean or a number. -/
theorem classes_of_flags (hv : v.isListed) (hb : v.isBare = false)
    (hf : ∀ i, isFlagged escaping i = flags.getD i false) :
    classes (Datum.of v) escaping = .ok (.string (ofText (Markup.classes v flags))) := by
  have hc := classes_of v hv
  have hn := toText_classes hv
  cases v with
  | array items => exact classes_of_array hv hf
  | object entries =>
    refine hc.trans ?_
    show Except.ok (Datum.string (ofText (Helpers.classes (.object entries)).toText)) = _
    rw [hn]
    rfl
  | null => rfl
  | string s =>
    have hs : Helpers.classes (.string s) = .string s := by
      unfold Helpers.classes
      split
      · rfl
      · next hfa => rw [show s = "" by simpa [truthy] using hfa]
    rw [hs] at hc hn
    refine hc.trans ?_
    show Except.ok (Datum.string (ofText s)) = .ok (.string (ofText (classNames (.string s))))
    rw [← hn]
    rfl
  | _ => cases hb

/-- A boolean or a number is given back, or nothing instead of it; its string is its class name. -/
theorem text_classes_of (hv : v.isListed) (hf : ∀ i, isFlagged escaping i = flags.getD i false) :
    (classes (Datum.of v) escaping >>= Datum.text .default) =
      .ok (ofText (Markup.classes v flags)) := by
  cases hb : v.isBare with
  | false =>
    rw [classes_of_flags hv hb hf]
    rfl
  | true =>
    have hs : classes (Datum.of v) escaping = classes (Datum.of v) none ∧
        Markup.classes v flags = classNames v := by
      cases v with
      | bool b | int n | double x => exact ⟨rfl, rfl⟩
      | _ => cases hb
    obtain ⟨hd, hc⟩ := isListed_classes hv
    rw [hs.1, hs.2, classes_of v hv, ← toText_classes hv]
    exact (Datum.text_of .default _ hd).trans (if_pos hc)

/-! ## Styles -/

theorem propertyText_of {v : Datum} {key : String} (h : v.Has key w) :
    propertyText (v.get? (ofText key)) =
      if w.converts then .ok (ofText w.toText) else .error .noPrimitive := by
  rw [h.get]
  exact Datum.text_of .default w h.data

/-- **The loop over properties** declares each of them, as long as they have strings. -/
theorem styleLoop_of {v : Datum} (members : List (String × Value))
    (hm : ∀ e ∈ members, v.Has e.1 e.2) (out : String) :
    styleLoop v (members.map fun e => ofText e.1) (ofText out) =
      if members.all fun e => e.2.converts then
        .ok (ofText (out ++ String.join (members.map fun e => Markup.declaration e.1 e.2)))
      else .error .noPrimitive := by
  induction members generalizing out with
  | nil => simp [styleLoop]
  | cons e members ih =>
    obtain ⟨hh, hr⟩ := List.forall_mem_cons.mp hm
    rw [map_cons, styleLoop, if_pos hh.own, propertyText_of hh, all_cons]
    cases e.2.converts with
    | false => rfl
    | true =>
      have ho : ofText out ++ ofText e.1 ++ ofText ":" ++ ofText e.2.toText ++ ofText ";" =
          ofText (out ++ declaration e.1 e.2) := by
        simp [declaration]
      show styleLoop v _ (ofText out ++ ofText e.1 ++ ofText ":" ++ ofText e.2.toText ++ ofText ";") = _
      rw [ho, ih hr, Bool.true_and, map_cons, String.join_cons, String.append_assoc]

theorem style_eq_join (h : (∃ items, v = .array items) ∨ ∃ entries, v = .object entries) :
    Markup.style v = String.join (v.members.map fun e => Markup.declaration e.1 e.2) := by
  rcases h with ⟨items, rfl⟩ | ⟨entries, rfl⟩
  · rw [members, map_map]
    rfl
  · rfl

theorem getLast?_ofText (text : String) : (ofText text).getLast? = some 59 ↔ text.endsWith ";" := by
  have hen : text.endsWith ";" ↔ [';'] <:+ text.toList := by
    rw [← String.endsWith_toSlice, String.Slice.endsWith_string_iff, String.copy_toSlice]
    rfl
  rw [hen, ofText]
  generalize text.toList = cs
  rcases eq_nil_or_concat cs with rfl | ⟨front, c, rfl⟩
  · simp
  · rw [concat_eq_append, Units.ofChars_append, Units.ofChars_cons, Units.ofChars_nil,
      append_nil, getLast?_append_of_ne_nil _ (Units.ofChar_ne_nil c)]
    constructor
    · intro hl
      have hc := (Units.mem_ofChar (a := ';') (by decide)).mp (mem_of_getLast? hl)
      rw [hc]
      exact suffix_append ..
    · intro hs
      have hc : ';' = c := by simpa using hs
      rw [← hc]
      rfl

theorem style_text {d : Datum} (ht : d.text .default = .ok (ofText v.toText)) :
    (d.text .default >>= fun text =>
      pure (if text.getLast? != some 59 then text ++ ofText ";" else text)) =
      (.ok (ofText (if v.toText.endsWith ";" then v.toText else v.toText ++ ";")) : Run Units) := by
  rw [ht]
  show Except.ok _ = _
  cases hen : v.toText.endsWith ";" with
  | true =>
    rw [(getLast?_ofText v.toText).mpr hen]
    rfl
  | false =>
    have hl : (ofText v.toText).getLast? ≠ some 59 := fun hl => by
      rw [(getLast?_ofText v.toText).mp hl] at hen
      cases hen
    rw [if_pos (bne_iff_ne.mpr hl), if_neg Bool.false_ne_true, Units.ofText_append]

/-- **The helper `style`** on a constant. -/
theorem style_of (hv : v.isListed) : style (Datum.of v) =
      if v.members.all fun e => e.2.converts then .ok (ofText (Markup.style v))
      else .error .noPrimitive := by
  have hl := styleLoop_of v.members (fun e he => Datum.has_of hv he) ""
  have hk := Datum.keys_of hv
  rw [← hk, String.empty_append] at hl
  have hs (hc : v.converts) :
      (if !(Datum.of v).truthy then .ok [] else (Datum.of v).text .default >>= fun text =>
        pure (if text.getLast? != some 59 then text ++ ofText ";" else text)) =
      (.ok (ofText (if !v.truthy then ""
        else if v.toText.endsWith ";" then v.toText else v.toText ++ ";")) : Run Units) := by
    have ht := Datum.text_of .default v hv
    rw [if_pos hc] at ht
    rw [Datum.truthy_of hv]
    cases v.truthy with
    | false => rfl
    | true => exact style_text ht
  cases v with
  | array items => exact hl.trans (by rw [style_eq_join (.inl ⟨items, rfl⟩)])
  | object entries => exact hl.trans (by rw [style_eq_join (.inr ⟨entries, rfl⟩)])
  | double x => cases hv
  | _ => exact hs rfl

/-! ## Attributes -/

theorem nameText_string (flag : Bool) (s : String) :
    nameText flag (.string (ofText s)) = .ok (ofText (if flag then Markup.escape s else s)) := by
  cases flag with
  | true =>
    rw [nameText, escape_string]
    rfl
  | false => rfl

theorem attrText_of (key s : String) (escaped : Bool) :
    attrText (ofText key) (ofText s) escaped = .ok (ofText (Markup.textAttribute key s escaped)) := by
  rw [attrText, nameText_string]
  simp [textAttribute, keyed]

/-- A script finds a double quote in a string if there is one in the text. -/
theorem contains_ofText (s : String) : (ofText s).contains 34 = s.toList.contains '"' := by
  rw [Bool.eq_iff_iff, contains_iff_mem, contains_iff_mem]
  exact Units.mem_ofChars (a := '"') (by decide)

theorem flatMap_betweenQuotes (s : String) :
    (ofText s).flatMap betweenQuotes = ofText (Markup.escapeSingleQuotes s) := by
  have hch (c : Char) : (Units.ofChar c).flatMap betweenQuotes =
      ofChars (if c == '\'' then "&#39;".toList else [c]) := by
    by_cases hc : c = '\''
    · subst hc
      rfl
    · have ho : ∀ u ∈ Units.ofChar c, betweenQuotes u = [u] := by
        intro u hu
        have hn : u ≠ 39 := by
          rintro rfl
          exact hc ((Units.mem_ofChar (by decide)).mp hu)
        rw [betweenQuotes, if_neg (by simpa using hn)]
      rw [Units.flatMap_eq_self ho, if_neg (by simpa using hc)]
      simp
  rw [ofText, Units.flatMap_ofChars hch, escapeSingleQuotes, Units.ofText_ofList]

/-- The attribute of a value that is no string, written as in a data file. -/
theorem dataAttribute_of (hv : v.isListed) (key : String) (escaped : Bool) :
    (if !escaped && (Datum.of v).json.contains 34 then
        .ok (ofText " " ++ ofText key ++ ofText "='" ++
          (Datum.of v).json.flatMap betweenQuotes ++ ofText "'")
      else attrText (ofText key) (Datum.of v).json escaped) =
      (.ok (ofText (Markup.dataAttribute key v escaped)) : Run Units) := by
  rw [Datum.json_of v hv, contains_ofText, flatMap_betweenQuotes, attrText_of]
  unfold dataAttribute
  cases escaped with
  | true => rfl
  | false =>
    cases v.json.toList.contains '"' with
    | true => simp
    | false => rfl

theorem isAbsent_of (hv : v.isListed) (key : String) :
    (isMissing (Datum.of v) || !(Datum.of v).truthy &&
      (ofText key == ofText "class" || ofText key == ofText "style")) = isAbsent key v := by
  have hk (name : String) : (ofText key == ofText name) = (key == name) := by
    rw [Bool.eq_iff_iff, beq_iff_eq, beq_iff_eq, Units.ofText_inj]
  rw [Datum.truthy_of hv, hk, hk]
  cases v with
  | null => rfl
  | bool b => cases b <;> rfl
  | _ => rfl

theorem dataAttribute_int {n : Int} (hn : n.natAbs < integerBound) (key : String)
    (escaped : Bool) : dataAttribute key (.int n) escaped =
      textAttribute key (int n).toText escaped := by
  have hj : (int n).json = toString n := rfl
  have hq : (toString n).toList.contains '"' = false := by
    rw [← Bool.not_eq_true, contains_iff_mem]
    intro hm
    exact List.countP_eq_zero.mp (countP_toString n) '"' hm rfl
  rw [dataAttribute, hj, toText_int hn, hq]
  cases escaped <;> rfl

/-- **The helper `attr`** on a constant. -/
theorem attr_of (hv : v.isListed) (key : String) (escaped terse : Bool) :
    attr (ofText key) (Datum.of v) escaped terse =
      .ok (ofText (attributeText key v escaped terse)) := by
  have hd := dataAttribute_of hv key escaped
  unfold attr attributeText
  rw [isAbsent_of hv]
  split
  · rfl
  · cases v with
    | null => next ha => exact absurd rfl ha
    | bool b =>
      show Except.ok _ = _
      cases terse <;> simp [keyed]
    | int n =>
      refine hd.trans ?_
      rw [dataAttribute_int (by simpa [isListed] using hv)]
    | double x => cases hv
    | string s => exact attrText_of key s escaped
    | array items => exact hd
    | object entries => exact hd

/-! ## All helpers -/

/-- **The helpers agree** with what is written beforehand. A constant is a value that a script builds
from literals. Escaping it takes its string, and a style takes the strings of its properties, so both
stop at an object that hides its method for that; class names and attributes never do. -/
theorem helpers_agree {v : Value} (hv : v.isData = true) :
    (∀ text, escape (.string (ofText text)) = .ok (.string (ofText (Markup.escape text)))) ∧
    escape (Datum.of v) =
      (if v.converts then .ok (Datum.of (Markup.escapeValue v)) else .error .noPrimitive) ∧
    (∀ escaping flags,
      escaping = none ∧ flags = [] ∨ escaping = some (flagList flags) →
        (classes (Datum.of v) escaping >>= Datum.text .default) =
            .ok (ofText (Markup.classes v flags)) ∧
          (v.isBare = false →
            classes (Datum.of v) escaping = .ok (.string (ofText (Markup.classes v flags))))) ∧
    style (Datum.of v) =
      (if v.members.all fun e => e.2.converts then .ok (ofText (Markup.style v))
        else .error .noPrimitive) ∧
    ∀ key escaped terse, attr (ofText key) (Datum.of v) escaped terse =
      .ok (ofText (Markup.attributeText key v escaped terse)) := by
  have hv := Datum.isListed_of_isData v hv
  refine ⟨escape_string, escape_of hv, fun escaping flags h => ?_, style_of hv, attr_of hv⟩
  have hflags : ∀ i, isFlagged escaping i = flags.getD i false := by
    rcases h with ⟨rfl, rfl⟩ | rfl
    · exact fun _ => rfl
    · exact isFlagged_flagList flags
  exact ⟨text_classes_of hv hflags, fun hbare => classes_of_flags hv hbare hflags⟩

/-- An array of a text with a special character, a number, nothing and an object. -/
theorem helpers_agree_array :
    let v : Value := .array [.string "a<b", .int 7, .null, .object [("x", .bool true)]]
    v.isData = true ∧
    escape (Datum.of v) = .ok (.string (ofText "a&lt;b,7,,[object Object]")) ∧
    classes (Datum.of v) (some (flagList [true])) = .ok (.string (ofText "a&lt;b 7 x")) := by
  intro v
  have hv : v.isData = true := by decide +kernel
  obtain ⟨-, hescape, hclasses, -, -⟩ := helpers_agree hv
  have hconverts : v.converts = true := by decide +kernel
  have hvalue : Markup.escapeValue v = .string (Markup.escape v.toText) := by
    rw [escapeValue_eq, if_pos (by decide +kernel)]
  have hescaped : Markup.escape v.toText = "a&lt;b,7,,[object Object]" := by decide +kernel
  have hnames : Markup.classes v [true] = "a&lt;b 7 x" := by decide +kernel
  refine ⟨hv, ?_, ?_⟩
  · rw [hescape, if_pos hconverts, hvalue, hescaped]
    rfl
  · rw [(hclasses _ [true] (.inr rfl)).2 rfl, hnames]

/-- A property named `toString` hides the method of an object, and then a script has no string for it.
What is written beforehand takes the string that other objects have. -/
theorem style_of_hidden_method :
    let v : Value := .object [("a", .object [("toString", .int 1)])]
    v.isData = true ∧ style (Datum.of v) = .error .noPrimitive ∧
      Markup.style v = "a:[object Object];" := by
  decide +kernel

end Runtime
end Script
end PugTemplate
