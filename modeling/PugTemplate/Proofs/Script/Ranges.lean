import Mathlib.Data.Nat.Find
import Mathlib.Order.Bounds.Basic
import PugTemplate.Proofs.Script.Endings
import PugTemplate.Script.Nesting.Range
/-!
# The first delimiter

A search for a delimiter reads on character by character. It ends at the first place where the
delimiter counts; if there is none, it ends as a scan of the whole text does, or at the end.
-/

namespace PugTemplate

open List Option
namespace Nesting

/-! ## Offsets -/

variable {cs front rest text part : List Char} {s : State} {stop : List Char → Bool}
  {options : UntilOptions}

/-- Of two starts of a text, the one with fewer bytes is the start of the other. -/
theorem prefix_of_bytes_le {text' rest' : List Char} (h : cs = text ++ rest)
    (h' : cs = text' ++ rest') (hl : bytes text ≤ bytes text') : text <+: text' := by
  rcases prefix_or_prefix_of_prefix ⟨rest, h.symm⟩ ⟨rest', h'.symm⟩ with hf | ⟨more, rfl⟩
  · exact hf
  · have hm : more = [] := by
      by_contra hn
      have hp := bytes_pos hn
      rw [bytes_append] at hl
      omega
    rw [hm, append_nil]

/-! ## Places where a delimiter counts -/

section

variable {stop : List Char → Bool} {options : UntilOptions} {s t : State}
  {cs text rest : List Char}

/-- The delimiter counts between two parts of a text. -/
structure Stops (stop : List Char → Bool) (options : UntilOptions) (s : State)
    (text rest : List Char) : Prop where
  rest_ne : rest ≠ []
  accepted : stop rest = true
  reached : ∃ t, s.pushAll text = some t ∧
    (options.ignoreNesting || !t.isNesting options.ignoreLineComment) = true

theorem stops_nil_iff : Stops stop options s [] rest ↔
    rest ≠ [] ∧ ((options.ignoreNesting || !s.isNesting options.ignoreLineComment) && stop rest) =
      true := by
  rw [Bool.and_eq_true]
  constructor
  · rintro ⟨hn, hs, t, ht, ho⟩
    cases ht
    exact ⟨hn, ho, hs⟩
  · rintro ⟨hn, ho, hs⟩
    exact ⟨hn, hs, s, rfl, ho⟩

/-- Behind one more character, the delimiter counts for the state before it. -/
theorem Stops.cons {c : Char} (hp : s.push c = some t) (h : Stops stop options t text rest) :
    Stops stop options s (c :: text) rest := by
  obtain ⟨hn, hs, u, hu, ho⟩ := h
  exact ⟨hn, hs, u, by rw [State.pushAll_cons, hp]; exact hu, ho⟩

theorem scanUntilFrom_of_first (hc : cs = text ++ rest) (hs : Stops stop options s text rest)
    (hf : ∀ text' rest', cs = text' ++ rest' → Stops stop options s text' rest' → text <+: text') :
    scanUntilFrom stop options s cs = .ok (s.taken.reverse ++ text, rest) := by
  induction cs generalizing s text with
  | nil => exact absurd (append_eq_nil_iff.mp hc.symm).2 hs.rest_ne
  | cons c cs ih =>
    unfold scanUntilFrom
    cases text with
    | nil =>
      rw [hc, nil_append, if_pos (stops_nil_iff.mp hs).2, append_nil]
    | cons d text =>
      rw [cons_append] at hc
      cases hc
      obtain ⟨hne, hst, u, hu, ho⟩ := hs
      obtain ⟨t, ht, hu⟩ := bind_eq_some_iff.mp hu
      -- it does not count here, since that would be before the first place
      have hh : ¬Stops stop options s [] (c :: (text ++ rest)) := fun hn =>
        absurd (hf _ _ rfl hn) (by simp)
      rw [stops_nil_iff] at hh
      rw [if_neg fun hn => hh ⟨cons_ne_nil _ _, hn⟩, ht]
      dsimp only
      rw [ih rfl ⟨hne, hst, u, hu, ho⟩, State.taken_push ht]
      · simp
      · intro text' rest' hcu hs
        have hl := hf (c :: text') rest' (congrArg (c :: ·) hcu) (hs.cons ht)
        exact (cons_prefix_cons.mp hl).2

/-- **A search without a place where the delimiter counts** ends as a scan does, or at the end. -/
theorem scanUntilFrom_of_never
    (hn : ∀ text rest, cs = text ++ rest → ¬Stops stop options s text rest) :
    scanUntilFrom stop options s cs =
      (scanFrom s s.taken cs).bind fun _ => .error (.unfinished (s.taken.reverse ++ cs)) := by
  induction cs generalizing s with
  | nil => rw [append_nil]; rfl
  | cons c cs ih =>
    have hh := hn [] (c :: cs) rfl
    rw [stops_nil_iff] at hh
    unfold scanUntilFrom scanFrom
    rw [if_neg fun hno => hh ⟨cons_ne_nil _ _, hno⟩]
    cases hp : s.push c with
    | none => rfl
    | some t =>
      dsimp only
      rw [ih fun text rest hc hs => hn (c :: text) rest (congrArg (c :: ·) hc)
        (hs.cons hp), State.taken_push hp]
      simp

theorem scanFrom_error {before : List Char} {fault : Fault}
    (h : scanFrom s before (text ++ rest) = .error fault) (ht : s.pushAll text = some t) :
    before.reverse ++ text <+: fault.before ∧ ∃ c front, fault = .mismatched c front := by
  induction text generalizing s before with
  | nil =>
    clear ht
    rw [nil_append] at h
    rw [append_nil]
    induction rest generalizing s before with
    | nil => cases h
    | cons c rest ih =>
      unfold scanFrom at h
      split at h
      · obtain ⟨hh, hf⟩ := ih h
        rw [reverse_cons] at hh
        exact ⟨(prefix_append _ _).trans hh, hf⟩
      · cases h
        exact ⟨prefix_rfl, _, _, rfl⟩
  | cons c text ih =>
    obtain ⟨u, hu, ht⟩ := bind_eq_some_iff.mp ht
    rw [cons_append, scanFrom, hu] at h
    simpa using ih h ht

end

/-! ## Offsets where a delimiter counts -/

/-- The delimiter counts at an offset: what follows is accepted, the text from the start of the search
to there has no fault, and it leaves nothing open, unless that is left out of account. -/
def Counts (stop : List Char → Bool) (options : UntilOptions) (start : Nat) (cs : List Char)
    (i : Nat) : Prop :=
  start ≤ i ∧ i < bytes cs ∧ (∃ front rest, cut? i cs = some (front, rest) ∧ stop rest = true) ∧
    ∃ s, scanRange {} start i cs = some (.ok s) ∧
      (options.ignoreNesting = true ∨ s.isNesting options.ignoreLineComment = false)

theorem scanRange_eq {s : State} {front text rest : List Char} :
    scanRange s (bytes front) (bytes front + bytes text) (front ++ (text ++ rest)) =
      some ((scanFrom s [] text).mapError (RangeFault.ofFault (bytes front))) := by
  unfold scanRange
  rw [slice?_eq_some_iff.mpr ⟨front, rest, rfl, rfl, rfl⟩]
  rfl

theorem scanRange_all : scanRange s (bytes front) (bytes (front ++ part)) (front ++ part) =
      some ((scanFrom s [] part).mapError (RangeFault.ofFault (bytes front))) := by
  have ha := @scanRange_eq s front part []
  rwa [append_nil, ← bytes_append] at ha

theorem counts_iff {i : Nat} : Counts stop options (bytes front) (front ++ part) i ↔
      ∃ text rest, part = text ++ rest ∧ i = bytes front + bytes text ∧
        Stops stop options {} text rest := by
  constructor
  · rintro ⟨-, hl, ⟨before, rest, hc, hst⟩, s, hsc, ho⟩
    obtain ⟨text, hsl, hp⟩ := map_eq_some_iff.mp hsc
    obtain ⟨front', rest', hcs, hfr, rfl⟩ := slice?_eq_some_iff.mp hsl
    obtain ⟨hb, hby⟩ := cut?_eq_some_iff.mp hc
    -- both cuts of the text are at the same places
    obtain ⟨rfl, rfl⟩ : front' = front ∧ text ++ rest' = part := by
      have hsa := cut?_eq_some_iff.mpr ⟨hcs, hfr⟩
      rw [cut?_eq_some_iff.mpr ⟨rfl, rfl⟩] at hsa
      cases hsa
      exact ⟨rfl, rfl⟩
    obtain rfl : rest' = rest := by
      have hsa := cut?_eq_some_iff.mpr ⟨hb, hby⟩
      rw [cut?_eq_some_iff.mpr ⟨(append_assoc ..).symm, bytes_append ..⟩] at hsa
      cases hsa
      rfl
    refine ⟨text, rest', rfl, rfl, ?_, hst, s, ?_, by simpa using ho⟩
    · rintro rfl
      simp at hl
    · rw [← @State.scanFrom_eq_ok_iff {} s []]
      cases hf : scanFrom {} [] text with
      | ok t => rw [hf] at hp; cases hp; rfl
      | error fault => rw [hf] at hp; cases hp
  · rintro ⟨text, rest, rfl, rfl, hn, hst, s, hs, ho⟩
    have hpo := bytes_pos hn
    refine ⟨Nat.le_add_right _ _, by simp only [bytes_append]; omega, ?_, s, ?_, by simpa using ho⟩
    · exact ⟨front ++ text, rest, cut?_eq_some_iff.mpr ⟨by simp, by simp⟩, hst⟩
    · rw [scanRange_eq, (@State.scanFrom_eq_ok_iff {} s []).mpr hs]
      rfl

theorem exists_first_stops (hcs : cs = text ++ rest) (h : Stops stop options s text rest) :
    ∃ text rest, cs = text ++ rest ∧ Stops stop options s text rest ∧
      ∀ text' rest', cs = text' ++ rest' → Stops stop options s text' rest' → text <+: text' := by
  classical
  let reached : Nat → Prop := fun n => ∃ text rest, cs = text ++ rest ∧ bytes text = n ∧
    Stops stop options s text rest
  have hex : ∃ n, reached n := ⟨_, text, rest, hcs, rfl, h⟩
  obtain ⟨text, rest, hc, hb, hs⟩ := Nat.find_spec hex
  refine ⟨text, rest, hc, hs, fun text' rest' hc' hs' => ?_⟩
  refine prefix_of_bytes_le hc hc' ?_
  rw [hb]
  exact Nat.find_min' hex ⟨text', rest', hc', rfl, hs'⟩

section

variable {stop : List Char → Bool} {options : UntilOptions} {front part text rest : List Char}

theorem rangeUntil_eq : rangeUntil stop options (bytes front) (front ++ part) =
    match scanUntilFrom stop options {} part with
    | .ok (text, _) => .ok ⟨bytes front, bytes front + bytes text, text⟩
    | .error fault => .error (.ofFault (bytes front) fault) := by
  rw [rangeUntil, cut?_eq_some_iff.mpr ⟨rfl, rfl⟩]
  rfl

theorem isLeast_counts (front : List Char) (hp : part = text ++ rest) (hs : Stops stop options {} text rest)
    (hf : ∀ text' rest', part = text' ++ rest' → Stops stop options {} text' rest' →
      text <+: text') :
    IsLeast {i | Counts stop options (bytes front) (front ++ part) i} (bytes front + bytes text) := by
  refine ⟨counts_iff.mpr ⟨text, rest, hp, rfl, hs⟩, fun i hi => ?_⟩
  obtain ⟨text', rest', hp', rfl, hs'⟩ := counts_iff.mp hi
  obtain ⟨more, rfl⟩ := hf text' rest' hp' hs'
  rw [bytes_append]
  omega

theorem le_of_scanRange_error {found : Char} {i : Nat} (hp : part = text ++ rest)
    (hs : Stops stop options {} text rest)
    (hf : scanRange {} (bytes front) (bytes (front ++ part)) (front ++ part) =
      some (.error (.mismatched found i))) : bytes front + bytes text ≤ i := by
  obtain ⟨t, ht, -⟩ := hs.reached
  rw [scanRange_all] at hf
  cases hfr : scanFrom {} [] part with
  | ok s => rw [hfr] at hf; cases hf
  | error fault =>
    rw [hfr] at hf
    rw [hp] at hfr
    obtain ⟨⟨more, hm⟩, c, before, rfl⟩ := scanFrom_error hfr ht
    cases hf
    rw [← show text ++ more = before from hm, bytes_append]
    omega

end

/-- **The first delimiter that counts.** A search from an offset that is between two characters gives
the text up to the least offset where the delimiter counts. It fails at a closing bracket exactly if a
scan of all the text fails there, and the delimiter does not count up to there. Otherwise it fails at
the end of the text. -/
theorem rangeUntil_first (stop : List Char → Bool) (options : UntilOptions) (cs : List Char)
    (start : Nat) (hstart : (cut? start cs).isSome = true) :
    (∀ range, rangeUntil stop options start cs = .ok range ↔
      range.start = start ∧ IsLeast {i | Counts stop options start cs i} range.stop ∧
        slice? start range.stop cs = some range.text) ∧
    (∀ found i, rangeUntil stop options start cs = .error (.mismatched found i) ↔
      scanRange {} start (bytes cs) cs = some (.error (.mismatched found i)) ∧
        ∀ j ≤ i, ¬Counts stop options start cs j) ∧
    ∀ i, rangeUntil stop options start cs = .error (.unfinished i) ↔
      i = bytes cs ∧ (∃ s, scanRange {} start (bytes cs) cs = some (.ok s)) ∧
        ∀ j, ¬Counts stop options start cs j := by
  obtain ⟨⟨front, part⟩, hcut⟩ := Option.isSome_iff_exists.mp hstart
  obtain ⟨rfl, rfl⟩ := cut?_eq_some_iff.mp hcut
  rw [rangeUntil_eq]
  by_cases hcounts : ∃ text rest, part = text ++ rest ∧ Stops stop options {} text rest
  · obtain ⟨_, _, hsome, hstops⟩ := hcounts
    obtain ⟨text, rest, hpart, hstops, hfirst⟩ := exists_first_stops hsome hstops
    have hleast := isLeast_counts front hpart hstops hfirst
    have hslice : slice? (bytes front) (bytes front + bytes text) (front ++ part) = some text :=
      slice?_eq_some_iff.mpr ⟨front, rest, by rw [hpart], rfl, rfl⟩
    rw [scanUntilFrom_of_first hpart hstops hfirst]
    refine ⟨fun range => ⟨?_, ?_⟩, fun found i => ⟨by rintro ⟨⟩, ?_⟩, fun i => ⟨by rintro ⟨⟩, ?_⟩⟩
    · rintro ⟨⟩
      exact ⟨rfl, hleast, hslice⟩
    · obtain ⟨start, stop, found⟩ := range
      rintro ⟨hstart, hstop, hfound⟩
      obtain rfl : bytes front + bytes text = stop := hleast.unique hstop
      obtain rfl : text = found := Option.some.inj (hslice.symm.trans hfound)
      rw [← show start = bytes front from hstart]
      rfl
    · rintro ⟨hfails, hnone⟩
      exact absurd hleast.1 (hnone _ (le_of_scanRange_error hpart hstops hfails))
    · rintro ⟨-, -, hnone⟩
      exact absurd hleast.1 (hnone _)
  · have hnone : ∀ i, ¬Counts stop options (bytes front) (front ++ part) i := by
      intro i hi
      obtain ⟨text, rest, hpart, -, hstops⟩ := counts_iff.mp hi
      exact hcounts ⟨text, rest, hpart, hstops⟩
    rw [scanRange_all, scanUntilFrom_of_never fun text rest hpart hstops =>
      hcounts ⟨text, rest, hpart, hstops⟩]
    have hok : ∀ range : Range, ¬(range.start = bytes front ∧
        IsLeast {i | Counts stop options (bytes front) (front ++ part) i} range.stop ∧
          slice? (bytes front) range.stop (front ++ part) = some range.text) :=
      fun range hleast => hnone _ hleast.2.1.1
    cases hfrom : scanFrom {} [] part with
    | ok s =>
      refine ⟨fun range => ⟨by rintro ⟨⟩, fun h => absurd h (hok range)⟩,
        fun found i => ⟨by rintro ⟨⟩, ?_⟩, fun i => ⟨?_, ?_⟩⟩
      · rintro ⟨⟨⟩, -⟩
      · rintro ⟨⟩
        exact ⟨(bytes_append ..).symm, ⟨s, rfl⟩, hnone⟩
      · rintro ⟨rfl, -, -⟩
        rw [bytes_append]
        rfl
    | error fault =>
      obtain ⟨-, c, before, rfl⟩ := @scanFrom_error {} {} [] part [] _ hfrom rfl
      refine ⟨fun range => ⟨by rintro ⟨⟩, fun h => absurd h (hok range)⟩,
        fun found i => ⟨?_, ?_⟩, fun i => ⟨by rintro ⟨⟩, ?_⟩⟩
      · rintro ⟨⟩
        exact ⟨rfl, fun j _ => hnone j⟩
      · rintro ⟨⟨⟩, -⟩
        rfl
      · rintro ⟨-, ⟨s, ⟨⟩⟩, -⟩

/-- The closing bracket behind another pair of brackets, in a text with wider characters. -/
theorem rangeUntil_first_accents :
    (cut? 1 "(é(ü))€)".toList).isSome = true ∧
    IsLeast {i | Counts (literal [')']) {} 1 "(é(ü))€)".toList i} 7 := by
  refine ⟨by decide, ?_⟩
  have hrange : rangeUntil (literal [')']) {} 1 "(é(ü))€)".toList = .ok ⟨1, 7, "é(ü)".toList⟩ := by
    decide
  exact (((rangeUntil_first _ _ _ 1 (by decide)).1 _).mp hrange).2.1

end Nesting
end PugTemplate
