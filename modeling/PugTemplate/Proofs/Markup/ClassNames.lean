import PugTemplate.Proofs.Markup.Escape
/-!
# Class names of escaped values

A class source can be escaped in two ways: its class names are worked out and escaped, or the value
is escaped and its class names are worked out. The two agree for strings and for values without
special characters. They differ for arrays, whose text has commas where the class names have spaces,
and for objects, whose keys are no part of their text. Where they differ for one of several sources,
the whole attribute differs: no other source can make up for it.
-/

namespace PugTemplate

open List Value String

open Markup

/-! ## Separators -/

namespace Markup

/-- Names with a space before each, where empty names are left out. -/
def spaced (names : List (List Char)) : List Char :=
  (names.filter fun name => !name.isEmpty).flatMap (' ' :: ·)

def listed (texts : List (List Char)) : List Char := texts.flatMap (',' :: ·)

@[simp] theorem spaced_nil : spaced [] = [] := rfl

theorem spaced_cons_of_ne_nil {name : List Char} (h : name ≠ []) (names : List (List Char)) :
    spaced (name :: names) = ' ' :: name ++ spaced names := by
  simp [spaced, h]

@[simp] theorem spaced_cons_nil (names : List (List Char)) :
    spaced ([] :: names) = spaced names := by
  simp [spaced]

theorem spaced_append (as bs : List (List Char)) : spaced (as ++ bs) = spaced as ++ spaced bs := by
  simp [spaced]

@[simp] theorem listed_nil : listed [] = [] := rfl

@[simp] theorem listed_cons (text : List Char) (texts : List (List Char)) :
    listed (text :: texts) = ',' :: text ++ listed texts := rfl

theorem listed_append (as bs : List (List Char)) : listed (as ++ bs) = listed as ++ listed bs := by
  simp [listed]

theorem trails_spaced (names : List (List Char)) : Trails (spaced names) := by
  unfold spaced
  cases names.filter fun name => !name.isEmpty with
  | nil => exact trails_nil
  | cons name rest => exact trails_space _

/-- What stands in front of the first one is left out when texts are joined. -/
theorem toList_intercalate_eq_tail {separator : String} {c : Char} (h : separator.toList = [c])
    (texts : List String) :
    (String.intercalate separator texts).toList =
      ((texts.map String.toList).flatMap (c :: ·)).tail := by
  induction texts with
  | nil => simp
  | cons text texts ih =>
    cases texts with
    | nil => simp
    | cons next rest =>
      rw [String.intercalate_cons_cons, toList_append, toList_append, ih, h]
      simp

/-- The names that are not empty, with a space between them. -/
def joinNames (names : List String) : String :=
  String.intercalate " " (names.filter fun name => !name.isEmpty)

theorem classes_array (items : List Value) (flags : List Bool) :
    classes (.array items) flags = joinNames (escapedItems items flags) := rfl

theorem toList_joinNames (names : List String) :
    (joinNames names).toList = (spaced (names.map String.toList)).tail := by
  rw [joinNames, toList_intercalate_eq_tail rfl]
  congr 2
  induction names with
  | nil => rfl
  | cons name names ih =>
    by_cases hn : name = ""
    · subst hn
      simpa using ih
    · have hl : name.toList ≠ [] := by simpa using hn
      simp [hn, hl, ih]

theorem spaced_tail (names : List (List Char)) : spaced [(spaced names).tail] = spaced names := by
  induction names with
  | nil => rfl
  | cons name names ih =>
    by_cases hn : name = []
    · subst hn
      simpa using ih
    · have hne : name ++ spaced names ≠ [] := by simp [hn]
      rw [spaced_cons_of_ne_nil hn, cons_append, tail_cons, spaced_cons_of_ne_nil hne,
        spaced_nil, append_nil]

theorem joinNames_eq_iff (as bs : List String) : joinNames as = joinNames bs ↔
      spaced (as.map String.toList) = spaced (bs.map String.toList) := by
  rw [← toList_inj, toList_joinNames, toList_joinNames]
  constructor
  · intro h
    rw [← spaced_tail (as.map toList), h, spaced_tail]
  · intro h
    rw [h]

theorem countP_spaced (names : List (List Char)) :
    (spaced names).countP isSpecial = names.flatten.countP isSpecial := by
  induction names with
  | nil => rfl
  | cons name names ih =>
    by_cases hn : name = []
    · subst hn
      simpa using ih
    · have hs : isSpecial ' ' = false := by decide
      rw [spaced_cons_of_ne_nil hn, cons_append, countP_cons_of_neg (by simp [hs]),
        countP_append, ih, flatten_cons, countP_append]

theorem countP_listed (texts : List (List Char)) :
    (listed texts).countP isSpecial = texts.flatten.countP isSpecial := by
  induction texts with
  | nil => rfl
  | cons text texts ih =>
    have hc : isSpecial ',' = false := by decide
    rw [listed_cons, cons_append, countP_cons_of_neg (by simp [hc]),
      countP_append, ih, flatten_cons, countP_append]

end Markup

/-! ## Parts of arrays -/

namespace Value

mutual

/-- The value and its items are no numbers that have a fraction, or that are too large to be held
exactly. An object is known by its keys, whatever their values are. -/
def isWhole : Value → Bool
  | .int n => n.natAbs < integerBound
  | .double _ => false
  | .array items => areWhole items
  | _ => true

/-- The items are no numbers that have a fraction, or that are too large to be held exactly. -/
def areWhole : List Value → Bool
  | [] => true
  | v :: vs => isWhole v && areWhole vs

end

/-- A part of an array: what stands for it in the text of the array, and in its class names. -/
structure Leaf where
  text : List Char := []
  name : List Char := []

mutual

def leaves : List Value → List Leaf
  | [] => []
  | v :: vs => itemLeaves v ++ leaves vs

/-- The parts of one item. An array in an array is taken apart, and an empty one is one empty part.
-/
def itemLeaves : Value → List Leaf
  | .array items => if items.isEmpty then [{}] else leaves items
  | .null => [{}]
  | v => [{ text := v.toText.toList, name := (classNames v).toList }]

end

def itemText : Value → String
  | .null => ""
  | v => v.toText

theorem itemTexts_cons (v : Value) (vs : List Value) :
    itemTexts (v :: vs) = v.itemText :: itemTexts vs := by
  cases v <;> rfl

theorem toList_toText_array (items : List Value) :
    (toText (.array items)).toList = (listed ((itemTexts items).map String.toList)).tail :=
  toList_intercalate_eq_tail rfl _

/-- The class names of an array, with a space in front of them if there are any. -/
theorem toList_classNames_array (items : List Value) :
    (classNames (.array items)).toList = (spaced ((classItems items).map String.toList)).tail := by
  rw [classNames, ← joinNames, toList_joinNames]

mutual

theorem listed_itemTexts (vs : List Value) :
    listed ((itemTexts vs).map String.toList) = listed ((leaves vs).map Leaf.text) := by
  cases vs with
  | nil => rfl
  | cons v vs =>
    have hv : listed [v.itemText.toList] = listed ((itemLeaves v).map Leaf.text) :=
      listed_itemText v
    rw [itemTexts_cons, leaves, map_append, listed_append, ← hv, ← listed_itemTexts vs]
    simp

theorem listed_itemText (v : Value) :
    listed [v.itemText.toList] = listed ((itemLeaves v).map Leaf.text) := by
  cases v with
  | array items =>
    have hi := listed_itemTexts items
    cases items with
    | nil => rfl
    | cons w ws =>
      show listed [(toText (.array (w :: ws))).toList] = _
      rw [itemLeaves, if_neg (by simp), ← hi, toList_toText_array, itemTexts_cons]
      simp
  | null => rfl
  | bool b => rfl
  | int n => rfl
  | double x => rfl
  | string s => rfl
  | object entries => rfl

end

mutual

theorem spaced_classItems (vs : List Value) :
    spaced ((classItems vs).map String.toList) = spaced ((leaves vs).map Leaf.name) := by
  cases vs with
  | nil => rfl
  | cons v vs =>
    have hv : spaced [(classNames v).toList] = spaced ((itemLeaves v).map Leaf.name) :=
      spaced_classNames v
    rw [classItems, leaves, map_append, spaced_append, ← hv, ← spaced_classItems vs,
      ← spaced_append]
    rfl

theorem spaced_classNames (v : Value) :
    spaced [(classNames v).toList] = spaced ((itemLeaves v).map Leaf.name) := by
  cases v with
  | array items =>
    have hi := spaced_classItems items
    cases items with
    | nil => rfl
    | cons w ws =>
      rw [itemLeaves, if_neg (by simp), ← hi, toList_classNames_array, spaced_tail]
  | null => rfl
  | bool b => rfl
  | int n => rfl
  | double x => rfl
  | string s => rfl
  | object entries => rfl

end

/-! ## Texts without special characters -/

theorem classNames_string (s : String) : classNames (.string s) = s := by
  by_cases hs : s = ""
  · subst hs
    rfl
  · simp [classNames, truthy, toText, hs]

theorem countP_toString (n : Int) : (toString n).toList.countP isSpecial = 0 := by
  have hd (m : Nat) : (toString m).toList.countP isSpecial = 0 := by
    rw [countP_eq_zero]
    intro c hc hs
    have hdi : c.isDigit := by
      rw [Nat.toString_eq_repr, Nat.toList_repr] at hc
      exact Nat.isDigit_of_mem_toDigits (by decide) (by decide) hc
    simp only [isSpecial, Bool.or_eq_true, beq_iff_eq] at hs
    rcases hs with ((rfl | rfl) | rfl) | rfl <;> exact absurd hdi (by decide)
  cases n with
  | ofNat m => exact hd m
  | negSucc m =>
    show ("-" ++ toString (m + 1)).toList.countP isSpecial = 0
    rw [toList_append, countP_append, hd]
    decide

theorem toText_int {n : Int} (h : n.natAbs < integerBound) : toText (.int n) = toString n := by
  have hex : n ≤ greatestExact := by
    have hb : integerBound = 2 ^ 53 := rfl
    have hg : greatestExact = 2 ^ 63 - 1 := rfl
    omega
  rw [toText, intText, if_pos hex]

namespace Leaf

/-- The texts of a part agree, or the one in the text of the array has no special characters. -/
def IsFaithful (l : Leaf) : Prop := l.text = l.name ∨ l.text.countP isSpecial = 0

end Leaf

mutual

/-- **The parts of an array**: only those that are no strings have two texts, and then the one in
the text of the array has no special characters. -/
theorem isFaithful_leaves (vs : List Value) (h : areWhole vs) : ∀ l ∈ leaves vs, l.IsFaithful := by
  cases vs with
  | nil => simp [leaves]
  | cons v vs =>
    simp only [areWhole, Bool.and_eq_true] at h
    intro l hl
    rw [leaves, mem_append] at hl
    rcases hl with hl | hl
    · exact isFaithful_itemLeaves v h.1 l hl
    · exact isFaithful_leaves vs h.2 l hl

theorem isFaithful_itemLeaves (v : Value) (h : isWhole v) : ∀ l ∈ itemLeaves v, l.IsFaithful := by
  intro l hl
  cases v with
  | array items =>
    have hi := isFaithful_leaves items h
    rw [itemLeaves] at hl
    split at hl
    · rw [mem_singleton.mp hl]
      exact .inl rfl
    · exact hi l hl
  | null => rw [mem_singleton.mp hl]; exact .inl rfl
  | bool b =>
    rw [mem_singleton.mp hl]
    cases b <;> exact .inr (by decide)
  | int n =>
    have hn : n.natAbs < integerBound := by simpa [isWhole] using h
    rw [mem_singleton.mp hl]
    exact .inr (by rw [toText_int hn, countP_toString])
  | double x => exact absurd h (by simp [isWhole])
  | string s =>
    rw [mem_singleton.mp hl]
    exact .inl (by rw [classNames_string]; rfl)
  | object entries =>
    rw [mem_singleton.mp hl]
    exact .inr (by simp only [toText]; decide)

end

end Value

/-! ## How names differ -/

namespace Markup

/-- How the names of one source can differ: both are there or none is, the second has no more `&`
than the first, and if it has as many, the two stay different whatever follows. -/
structure Alike (x y : List Char) : Prop where
  empty : x = [] ↔ y = []
  count : y.count '&' ≤ x.count '&'
  apart : y.count '&' = x.count '&' → x ≠ y → Apart x y

theorem Alike.refl (x : List Char) : Alike x x :=
  ⟨Iff.rfl, Nat.le_refl _, fun _ h => absurd rfl h⟩

theorem alike_escape (cs : List Char) : Alike (escapeChars cs) cs := by
  refine ⟨escape_eq_nil, ?_, fun _ hn => apart_escape fun h => hn (escape_of_ordinary h)⟩
  rw [count_escape]
  apply countP_mono_left
  intro c _ hc
  rw [beq_iff_eq] at hc
  subst hc
  decide

theorem exists_last {α : Type} (p : α → Bool) {l : List α} (h : ∃ a ∈ l, p a) :
    ∃ before a behind, l = before ++ a :: behind ∧ p a ∧ ∀ b ∈ behind, p b = false := by
  obtain ⟨a, ha, hp⟩ := h
  cases hf : l.reverse.find? p with
  | none => exact absurd hp (by simpa using find?_eq_none.mp hf a (mem_reverse.mpr ha))
  | some b =>
    obtain ⟨hb, behind, before, hl, hbe⟩ := find?_eq_some_iff_append.mp hf
    refine ⟨before.reverse, b, behind.reverse, ?_, hb, ?_⟩
    · rw [← reverse_reverse l, hl]
      simp
    · intro c hc
      simpa using hbe c (mem_reverse.mp hc)

theorem countP_tail {cs : List Char} (h : ∀ c ∈ cs.head?, isSpecial c = false) :
    cs.tail.countP isSpecial = cs.countP isSpecial := by
  cases cs with
  | nil => rfl
  | cons c cs => rw [tail_cons, countP_cons_of_neg (by simp [h c rfl])]

theorem tail_spaced_split (before behind : List (List Char)) {name : List Char} (h : name ≠ []) :
    (spaced (before ++ name :: behind)).tail =
      (spaced before ++ [' ']).tail ++ (name ++ spaced behind) := by
  rw [spaced_append, spaced_cons_of_ne_nil h]
  cases spaced before <;> simp

theorem tail_listed_split (before behind : List (List Char)) (text : List Char) :
    (listed (before ++ text :: behind)).tail =
      (listed before ++ [',']).tail ++ (text ++ listed behind) := by
  rw [listed_append]
  cases listed before <;> simp

theorem countP_tail_spaced (names : List (List Char)) :
    (spaced names ++ [' ']).tail.countP isSpecial = names.flatten.countP isSpecial := by
  have hh : ∀ c ∈ (spaced names ++ [' ']).head?, isSpecial c = false := by
    intro c hc
    have hsp : c = ' ' := by
      have ht := trails_spaced names
      cases hs : spaced names with
      | nil => rw [hs] at hc; simpa using hc.symm
      | cons d rest =>
        rw [hs] at hc ht
        exact ht c (by simpa using hc)
    rw [hsp]
    decide
  rw [countP_tail hh, countP_append, countP_spaced]
  simp [isSpecial]

theorem countP_tail_listed (texts : List (List Char)) :
    (listed texts ++ [',']).tail.countP isSpecial = texts.flatten.countP isSpecial := by
  have hh : ∀ c ∈ (listed texts ++ [',']).head?, isSpecial c = false := by
    intro c hc
    have hco : c = ',' := by
      cases texts with
      | nil | cons text rest => simpa using hc.symm
    rw [hco]
    decide
  rw [countP_tail hh, countP_append, countP_listed]
  simp [isSpecial]

variable {leaves : List Value.Leaf} {v : Value} {items : List Value}
  {pairs : List (List Char × List Char)}

/-- The parts of an array have no more special characters in its text than in its class names. -/
theorem countP_texts_le (h : ∀ l ∈ leaves, l.IsFaithful) :
    (leaves.map Value.Leaf.text).flatten.countP isSpecial ≤
      (leaves.map Value.Leaf.name).flatten.countP isSpecial := by
  induction leaves with
  | nil => exact Nat.le_refl _
  | cons l rest ih =>
    have hr := ih fun l hl => h l (mem_cons_of_mem _ hl)
    have hl : l.text.countP isSpecial ≤ l.name.countP isSpecial := by
      rcases h l mem_cons_self with hs | hn
      · exact Nat.le_of_eq (by rw [hs])
      · omega
    simp only [map_cons, flatten_cons, countP_append]
    omega

/-- **The parts of an array**, joined with commas and joined with spaces. Where both have as many
special characters, the last one stands in a string that both have. There they can only be equal up
to that string, and behind it one would go on with a comma and the other with a space. -/
theorem alike_leaves (hf : ∀ l ∈ leaves, l.IsFaithful) (hs : ∃ l ∈ leaves, l.text.any isSpecial) :
    Alike (escapeChars (spaced (leaves.map Value.Leaf.name)).tail)
      (escapeChars (listed (leaves.map Value.Leaf.text)).tail) := by
  -- the last part with special characters is a string, which stands in both
  obtain ⟨before, ⟨text, name⟩, behind, rfl, hla, -⟩ := exists_last _ hs
  have hb := countP_texts_le fun l hl => hf l (mem_append_left _ hl)
  have hbe := countP_texts_le fun l hl =>
    hf l (mem_append_right _ (mem_cons_of_mem _ hl))
  obtain ⟨front, c, rest, rfl, hc, -⟩ := exists_last isSpecial (any_eq_true.mp hla)
  have hn : name = front ++ c :: rest := by
    rcases hf _ (mem_append_right before mem_cons_self) with hsa | hno
    · exact hsa.symm
    · exact absurd hc (by simpa using countP_eq_zero.mp hno c (by simp))
  subst hn
  have hne : front ++ c :: rest ≠ [] := by simp
  obtain ⟨entity, hen, -⟩ := escapeChar_of_special hc
  simp only [map_append, map_cons]
  rw [tail_spaced_split _ _ hne, tail_listed_split]
  refine ⟨by simp [escape_eq_nil, escapeChar_ne_nil], ?_, ?_⟩
  · simp only [count_escape, countP_append, countP_tail_spaced, countP_tail_listed,
      countP_spaced, countP_listed]
    omega
  · intro hco hd u w hu hw heq
    generalize hC : (spaced (before.map Leaf.name) ++ [' ']).tail = C at *
    generalize hT : (listed (before.map Leaf.text) ++ [',']).tail = T at *
    -- both have as many special characters in front of the string
    have hfr : (escapeChars (C ++ front)).count '&' = (escapeChars (T ++ front)).count '&' := by
      simp only [count_escape, countP_append, countP_cons, countP_spaced, countP_listed,
        ← hC, ← hT, countP_tail_spaced, countP_tail_listed] at hco ⊢
      omega
    have hcu : escapeChars (C ++ front) ++ '&' :: (entity ++ (escapeChars rest ++
          (escapeChars (spaced (behind.map Leaf.name)) ++ u))) =
        escapeChars (T ++ front) ++ '&' :: (entity ++ (escapeChars rest ++
          (escapeChars (listed (behind.map Leaf.text)) ++ w))) := by
      simpa [hen] using heq
    obtain ⟨hst, hend⟩ := append_amp_inj hfr hcu
    have hsa : C = T := append_cancel_right (escape_inj hst)
    rw [append_cancel_left_eq, append_cancel_left_eq] at hend
    -- what stands behind the string starts with a space in the one and with a comma in the other
    cases behind with
    | nil => exact hd (by rw [hsa]; rfl)
    | cons l ls =>
      have ht := (trails_spaced ((l :: ls).map Leaf.name)).escape_append hu
      rw [hend] at ht
      exact absurd (ht ',' rfl) (by decide)

/-! ## Escaped values -/

/-- Escaping the value gives the class names that escaping the class names gives. An array whose
text has special characters is taken for that text, and any other array or object is not escaped. -/
def foldsExactly (v : Value) : Bool :=
  match v with
  | .array _ =>
    if v.toText.toList.any isSpecial then v.toText == classNames v
    else !(classNames v).toList.any isSpecial
  | .object _ => !(classNames v).toList.any isSpecial
  | _ => true

theorem escapeValue_of_ordinary (hs : ∀ s, v ≠ .string s)
    (h : v.toText.toList.any isSpecial = false) : escapeValue v = v := by
  cases v with
  | string s => exact absurd rfl (hs s)
  | _ => simp only [escapeValue, h, Bool.false_eq_true, if_false]

theorem classNames_escapeValue_of_special (h : (array items).toText.toList.any isSpecial) :
    classNames (escapeValue (.array items)) = escape (array items).toText := by
  simp only [escapeValue, h, if_true, classNames_string]

theorem eq_escape_iff (text : String) : text = escape text ↔ text.toList.any isSpecial = false := by
  rw [← toList_inj, toList_escape]
  constructor
  · intro h
    cases ha : text.toList.any isSpecial with
    | false => rfl
    | true =>
      have hco : text.toList.countP isSpecial ≠ 0 := by
        obtain ⟨c, hc, hs⟩ := any_eq_true.mp ha
        exact fun h => countP_eq_zero.mp h c hc hs
      exact absurd (by rw [← h]) (apart_escape hco [] [] trails_nil trails_nil)
  · intro h
    refine (escape_of_ordinary (countP_eq_zero.mpr fun c hc => ?_)).symm
    simpa using any_eq_false.mp h c hc

/-- Values that are neither arrays nor objects are escaped as their class names are. -/
theorem classNames_escapeValue_of_scalar (hv : v.isWhole)
    (ha : ∀ items, v ≠ .array items) (ho : ∀ entries, v ≠ .object entries) :
    classNames (escapeValue v) = escape (classNames v) := by
  cases v with
  | null => decide
  | bool b => cases b <;> decide
  | int n =>
    have hn : n.natAbs < integerBound := by simpa [isWhole] using hv
    have hd : (toText (.int n)).toList.any isSpecial = false := by
      rw [toText_int hn]
      simpa using countP_eq_zero.mp (countP_toString n)
    have hna : classNames (.int n) =
        if (int n).truthy then (int n).toText else "" := rfl
    rw [escapeValue_of_ordinary (by simp) hd, eq_escape_iff, hna]
    split
    · exact hd
    · decide
  | double x => exact absurd hv (by simp [isWhole])
  | string s => simp only [escapeValue, classNames_string]
  | array items => exact absurd rfl (ha items)
  | object entries => exact absurd rfl (ho entries)

/-- **The two ways to escape a value** agree exactly for the values that fold exactly. -/
theorem foldsExactly_iff (hv : v.isWhole) :
    foldsExactly v ↔ classNames (escapeValue v) = escape (classNames v) := by
  cases v with
  | array items =>
    simp only [foldsExactly]
    cases hs : (array items).toText.toList.any isSpecial with
    | true =>
      rw [if_pos rfl, classNames_escapeValue_of_special hs, beq_iff_eq]
      constructor
      · intro h
        rw [h]
      · intro h
        -- both sides are escaped, and escaping loses nothing
        rw [← toList_inj, toList_escape, toList_escape] at h
        exact toList_inj.mp (escape_inj h)
    | false =>
      rw [escapeValue_of_ordinary (by simp) hs, eq_escape_iff]
      simp
  | object entries =>
    have hs : (object entries).toText.toList.any isSpecial = false := by
      simp only [toText]
      decide
    rw [escapeValue_of_ordinary (by simp) hs, eq_escape_iff]
    simp [foldsExactly]
  | _ =>
    have h := classNames_escapeValue_of_scalar hv (by simp) (by simp)
    simp [foldsExactly, h]

/-- A special character in the text of an array stands in the text of one of its parts. -/
theorem exists_special_leaf (h : (Value.array items).toText.toList.any isSpecial) :
    ∃ l ∈ Value.leaves items, l.text.any isSpecial := by
  rw [toList_toText_array, listed_itemTexts] at h
  obtain ⟨c, hc, hs⟩ := any_eq_true.mp h
  obtain ⟨text, ht, hm⟩ := mem_flatMap.mp (mem_of_mem_tail hc)
  obtain ⟨l, hl, rfl⟩ := mem_map.mp ht
  rcases mem_cons.mp hm with rfl | hm
  · exact absurd hs (by decide)
  · exact ⟨l, hl, any_eq_true.mpr ⟨c, hm, hs⟩⟩

theorem alike_escapeValue (hv : v.isWhole) :
    Alike (escape (classNames v)).toList (classNames (escapeValue v)).toList := by
  have ho (hst : ∀ s, v ≠ .string s) (h : v.toText.toList.any isSpecial = false) :
      Alike (escape (classNames v)).toList (classNames (escapeValue v)).toList := by
    rw [escapeValue_of_ordinary hst h, toList_escape]
    exact alike_escape _
  cases v with
  | array items =>
    cases hs : (array items).toText.toList.any isSpecial with
    | false => exact ho (by simp) hs
    | true =>
      rw [classNames_escapeValue_of_special hs, toList_escape, toList_escape,
        toList_classNames_array, toList_toText_array, spaced_classItems,
        listed_itemTexts]
      exact alike_leaves (isFaithful_leaves items hv) (exists_special_leaf hs)
  | object entries =>
    refine ho (by simp) ?_
    simp only [toText]
    decide
  | _ =>
    rw [classNames_escapeValue_of_scalar hv (by simp) (by simp)]
    exact .refl _

/-! ## Lists of names -/

/-- The second names have no more `&` than the first ones. -/
theorem count_spaced_le (h : ∀ p ∈ pairs, Alike p.1 p.2) :
    (spaced (pairs.map (·.2))).count '&' ≤ (spaced (pairs.map (·.1))).count '&' := by
  induction pairs with
  | nil => exact Nat.le_refl _
  | cons p rest ih =>
    have hp := h p mem_cons_self
    have hr := ih fun p hp => h p (mem_cons_of_mem _ hp)
    simp only [map_cons]
    by_cases hem : p.1 = []
    · rw [hem, hp.empty.mp hem]
      exact hr
    · rw [spaced_cons_of_ne_nil hem, spaced_cons_of_ne_nil (mt hp.empty.mpr hem)]
      have hc := hp.count
      simp only [cons_append, count_cons, count_append]
      omega

/-- **Names that are alike in pairs** are equal if their lists are: where one pair differs, nothing
behind it can make up for the difference. -/
theorem spaced_eq_iff (h : ∀ p ∈ pairs, Alike p.1 p.2) :
    spaced (pairs.map (·.1)) = spaced (pairs.map (·.2)) ↔ ∀ p ∈ pairs, p.1 = p.2 := by
  induction pairs with
  | nil => simp
  | cons p rest ih =>
    have hp := h p mem_cons_self
    have hr : ∀ q ∈ rest, Alike q.1 q.2 := fun q hq => h q (mem_cons_of_mem _ hq)
    simp only [map_cons, forall_mem_cons]
    by_cases hem : p.1 = []
    · rw [hem, hp.empty.mp hem, spaced_cons_nil, spaced_cons_nil, ih hr]
      simp
    · rw [spaced_cons_of_ne_nil hem, spaced_cons_of_ne_nil (mt hp.empty.mpr hem)]
      simp only [cons_append, cons.injEq, true_and]
      constructor
      · intro heq
        -- the first names have as many `&`, since those behind them cannot have more
        have hc : p.2.count '&' = p.1.count '&' := by
          have ht := congrArg (count '&') heq
          have hl := count_spaced_le hr
          have hl' := hp.count
          rw [count_append, count_append] at ht
          omega
        have hs : p.1 = p.2 := Classical.byContradiction fun hn =>
          hp.apart hc hn _ _ (trails_spaced _) (trails_spaced _) heq
        rw [hs, append_cancel_left_eq] at heq
        exact ⟨hs, (ih hr).mp heq⟩
      · rintro ⟨hs, ha⟩
        rw [hs, (ih hr).mpr ha]

end Markup

end PugTemplate
