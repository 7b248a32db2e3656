import PugTemplate.Program.Assemble
import PugTemplate.Proofs.Program.Actions
import PugTemplate.Proofs.Script.Data
/-!
# Parameters of mixins

The list of a mixin's parameters is cut at every comma, those of default values included. The header of
the function is the same text again, so commas do no harm there. But the number of parts is where the
rest of the arguments starts, and the part behind the last comma of a default value is taken for the
parameter for the rest if it starts with dots.
-/

namespace PugTemplate

open List Text

namespace Program

open Emit

/-! ## Cutting at commas -/

theorem splitCommas_eq_splitOn (cs : List Char) : splitCommas cs = cs.splitOn ',' := by
  fun_induction splitCommas cs with
  | case1 => rfl
  | case2 cs ih => rw [ih]; rfl
  | case3 c cs hc _ ih => exact absurd (ih.symm.trans ‹_›) (splitOn_ne_nil _ _)
  | case4 c cs hc part parts hp ih =>
    rw [splitOn_cons_eq_if_modifyHead, ← ih, hp, if_neg (by simpa using hc)]
    rfl

theorem splitOn_of_not_mem {cs : List Char} (h : ',' ∉ cs) : cs.splitOn ',' = [cs] := by
  refine splitOnP_eq_singleton fun c hc => ?_
  rw [beq_eq_false_iff_ne]
  rintro rfl
  exact h hc

theorem splitOn_append_comma (front back : List Char) :
    (front ++ ',' :: back).splitOn ',' = front.splitOn ',' ++ back.splitOn ',' :=
  splitOnP_append_cons _ _ rfl

theorem splitOn_intercalate_comma {texts : List (List Char)} (h : texts ≠ []) :
    ([','].intercalate texts).splitOn ',' = texts.flatMap (·.splitOn ',') := by
  induction texts with
  | nil => exact absurd rfl h
  | cons text texts ih =>
    cases texts with
    | nil => simp
    | cons next rest =>
      rw [intercalate_cons_cons, append_assoc, singleton_append, splitOn_append_comma,
        ih (cons_ne_nil _ _)]
      rfl

theorem intercalate_flatMap_splitOn (texts : List (List Char)) :
    [','].intercalate (texts.flatMap (·.splitOn ',')) = [','].intercalate texts := by
  by_cases h : texts = []
  · rw [h, flatMap_nil]
  · rw [← splitOn_intercalate_comma h, intercalate_splitOn]

theorem length_flatMap_splitOn (texts : List (List Char)) :
    texts.length ≤ (texts.flatMap (·.splitOn ',')).length ∧
      (texts.length = (texts.flatMap (·.splitOn ',')).length ↔ ∀ text ∈ texts, ',' ∉ text) := by
  induction texts with
  | nil => simp
  | cons text texts ih =>
    obtain ⟨hl, hi⟩ := ih
    rw [flatMap_cons, length_append, length_cons, forall_mem_cons]
    by_cases h : ',' ∈ text
    · obtain ⟨front, back, rfl⟩ := append_of_mem h
      have hf := length_pos_iff.mpr (splitOn_ne_nil ',' front)
      have hb := length_pos_iff.mpr (splitOn_ne_nil ',' back)
      rw [splitOn_append_comma, length_append]
      exact ⟨by omega, iff_of_false (by omega) fun hn => hn.1 h⟩
    · rw [splitOn_of_not_mem h, length_singleton]
      exact ⟨by omega, fun heq => ⟨h, hi.mp (by omega)⟩, fun hn => by rw [hi.mpr hn.2]; omega⟩

theorem exists_last_comma {cs : List Char} (h : ',' ∈ cs) :
    ∃ front last, cs = front ++ ',' :: last ∧ ',' ∉ last := by
  obtain ⟨back, front, hc, hb⟩ := eq_append_cons_of_mem (mem_reverse.mpr h)
  refine ⟨front.reverse, back.reverse, ?_, by simpa using hb⟩
  rw [← reverse_reverse cs, hc]
  simp

theorem intercalate_ofList (texts : List (List Char)) :
    String.intercalate "," (texts.map String.ofList) = String.ofList ([','].intercalate texts) := by
  simp [← String.toList_inj, String.toList_intercalate, Function.comp_def]

/-! ## Parameters -/

/-- A parameter with a name, which blanks may stand before. Behind it stands any text, such as a
default value. -/
structure NamedParameter where
  name : List Char
  value : List Char
  first : ∃ c ∈ (trimStart name).head?, c ≠ '.'
  comma : ',' ∉ name

/-- The parameter for the rest of the arguments: dots and a name, and perhaps blanks around them. -/
structure RestParameter where
  name : List Char
  text : List Char
  dots : trim text = ['.', '.', '.'] ++ name
  comma : ',' ∉ text

def NamedParameter.text (p : NamedParameter) : List Char := p.name ++ p.value

/-- What stands behind the last comma of a default value starts with dots. -/
def NamedParameter.EndsInDots (p : NamedParameter) : Prop :=
  ∃ front last, p.value = front ++ ',' :: last ∧ ',' ∉ last ∧ ['.', '.', '.'] <+: trim last

structure ParameterList where
  named : List NamedParameter
  rest : Option RestParameter

namespace ParameterList

/-- The text of the parameters that have names. -/
def header (ps : ParameterList) : List Char := [','].intercalate (ps.named.map (·.text))

/-- What is left of these if they are cut at every comma. -/
def parts (ps : ParameterList) : List (List Char) :=
  (ps.named.map (·.text)).flatMap (·.splitOn ',')

def text (ps : ParameterList) : List Char :=
  [','].intercalate (ps.named.map (·.text) ++ ps.rest.toList.map (·.text))

/-- No comma of a default value is taken for one of the list. -/
def IsLowered (ps : ParameterList) : Prop :=
  match ps.rest with
  | some _ => ∀ p ∈ ps.named, ',' ∉ p.value
  | none => ∀ p ∈ ps.named.getLast?, ¬p.EndsInDots

end ParameterList

/-- The start of a function with these parameters, of which the last one collects arguments from a
place on. -/
def headCodes (name header : String) (rest : Option (String × Nat)) : List String :=
  [mixinTarget name ++ " = pug_interp = function(" ++ header ++ ")\x7b",
    "var block = (this && this.block), attributes = (this && this.attributes) || \x7b\x7d;"] ++
  rest.elim [] fun (rest, start) =>
    ["var " ++ rest ++ " = [];", "for (pug_interp = " ++ toString start ++
        "; pug_interp < arguments.length; pug_interp++) \x7b",
      "  " ++ rest ++ ".push(arguments[pug_interp]);", "\x7d"]

/-- The start of a definition, as it is written. -/
def mixinCodes (name : String) (parameters : Option String) : List String :=
  let parts := splitParameters parameters
  headCodes name (String.intercalate "," parts.1) (parts.2.map (·, parts.1.length))

theorem emitMixinHead_eq (name : String) (parameters : Option String) :
    emitMixinHead name parameters = emitStatements (mixinCodes name parameters) := by
  unfold emitMixinHead mixinCodes
  obtain ⟨names, rest⟩ := splitParameters parameters
  cases rest <;> rfl

theorem headCodes_inj_start {name header rest : String} {m n : Nat}
    (h : headCodes name header (some (rest, m)) = headCodes name header (some (rest, n))) : m = n := by
  simp only [headCodes, Option.elim, append_cancel_left_eq, cons.injEq] at h
  have hl := h.2.1
  rw [String.append_left_inj, String.append_right_inj] at hl
  exact Value.toString_inj hl

theorem splitParameters_eq {cs last : List Char} {front : List (List Char)} (hn : cs ≠ [])
    (h : cs.splitOn ',' = front ++ [last]) :
    splitParameters (some (String.ofList cs)) =
      match trim last with
      | '.' :: '.' :: '.' :: rest => (front.map String.ofList, some (String.ofList rest))
      | _ => ((front ++ [last]).map String.ofList, none) := by
  have hem : (String.ofList cs).isEmpty = false := by simpa using hn
  have hp : splitCommas cs = front ++ [last] := (splitCommas_eq_splitOn cs).trans h
  have hparts := splitParameters.eq_1 (some (String.ofList cs))
  simp only [Option.getD_some, hem, String.toList_ofList, hp, Bool.false_eq_true, if_false,
    getLast?_concat, dropLast_concat] at hparts
  exact hparts

/-! ## Parts of a list -/

namespace NamedParameter

variable (p : NamedParameter)

theorem text_ne_nil : p.text ≠ [] := by
  obtain ⟨c, hc, -⟩ := p.first
  intro h
  rw [(append_eq_nil_iff.mp h).1] at hc
  cases hc

theorem mem_text_iff : ',' ∈ p.text ↔ ',' ∈ p.value := by
  simp [text, p.comma]

theorem not_dots : ¬['.', '.', '.'] <+: trim p.text := by
  obtain ⟨c, hc, hd⟩ := p.first
  obtain ⟨rest, hr⟩ := head?_eq_some_iff.mp hc
  have hs : trimStart p.text = c :: (rest ++ p.value) := by
    rw [trimStart] at hr
    simp [trimStart, text, dropWhile_append, hr]
  have he : trimEnd (trimStart p.text) <+: trimStart p.text := by
    rw [trimEnd, ← reverse_suffix, reverse_reverse]
    exact dropWhile_suffix _
  intro h
  have hp := h.trans he
  rw [hs] at hp
  exact hd (cons_prefix_cons.mp hp).1.symm

theorem splitOn_text : ∃ parts last, p.text.splitOn ',' = parts ++ [last] ∧
    (p.EndsInDots ↔ ['.', '.', '.'] <+: trim last) := by
  by_cases h : ',' ∈ p.value
  · obtain ⟨front, last, hc, hl⟩ := exists_last_comma h
    refine ⟨(p.name ++ front).splitOn ',', last, ?_, ?_, fun hd => ?_⟩
    · rw [text, hc, ← append_assoc, splitOn_append_comma, splitOn_of_not_mem hl]
    · rintro ⟨front', last', hc', hl', hd⟩
      have hs := congrArg (splitOn ',') (hc.symm.trans hc')
      rw [splitOn_append_comma, splitOn_append_comma, splitOn_of_not_mem hl,
        splitOn_of_not_mem hl'] at hs
      obtain ⟨-, heq⟩ := append_inj' hs rfl
      cases heq
      exact hd
    · exact ⟨front, last, hc, hl, hd⟩
  · refine ⟨[], p.text, splitOn_of_not_mem (mt p.mem_text_iff.mp h), ?_⟩
    refine iff_of_false ?_ p.not_dots
    rintro ⟨front, last, hc, -⟩
    exact h (by simp [hc])

end NamedParameter

namespace ParameterList

variable {ps : ParameterList}

theorem splitParameters_text_rest {r : RestParameter} (h : ps.rest = some r) :
    splitParameters (some (String.ofList ps.text)) =
      (ps.parts.map String.ofList, some (String.ofList r.name)) := by
  have hp : ps.text.splitOn ',' = ps.parts ++ [r.text] := by
    rw [text, h, splitOn_intercalate_comma (by simp), parts]
    simp [splitOn_of_not_mem r.comma]
  have hn : ps.text ≠ [] := by
    intro heq
    have hl : [] = r.text := by simpa [heq] using congrArg getLast? hp
    have hd := r.dots
    rw [← hl] at hd
    cases hd
  rw [splitParameters_eq hn hp, r.dots]
  rfl

theorem splitParameters_text_named (hr : ps.rest = none) :
    splitParameters (some (String.ofList ps.text)) = (ps.parts.map String.ofList, none) ∧
        ps.IsLowered ∨
      (splitParameters (some (String.ofList ps.text))).2.isSome ∧ ¬ps.IsLowered := by
  have ht : ps.text = ps.header := by simp [text, header, hr]
  obtain hni | ⟨front, p, hn⟩ := eq_nil_or_concat ps.named
  · refine .inl ⟨?_, by simp [IsLowered, hr, hni]⟩
    rw [ht, header, parts, hni]
    rfl
  · obtain ⟨parts, last, hc, hd⟩ := p.splitOn_text
    have hp : ps.text.splitOn ',' =
        (front.map (·.text)).flatMap (·.splitOn ',') ++ parts ++ [last] := by
      rw [ht, header, splitOn_intercalate_comma (by simp [hn]), hn]
      simp [hc]
    have hne : ps.text ≠ [] := by
      obtain ⟨q, more, hq⟩ := exists_cons_of_ne_nil (show ps.named ≠ [] by simp [hn])
      rw [ht, header, hq]
      cases more <;> simp [q.text_ne_nil]
    have hl : ps.IsLowered ↔ ¬p.EndsInDots := by
      simp [IsLowered, hr, hn]
    rw [splitParameters_eq hne hp, hl, hd]
    split
    · next rest hr => exact .inr ⟨rfl, by simp [hr]⟩
    · next hno =>
      refine .inl ⟨?_, ?_⟩
      · rw [← hp, ht, header, splitOn_intercalate_comma (by simp [hn])]
        rfl
      · rintro ⟨more, hm⟩
        exact hno more hm.symm

/-- The start of the function that these parameters call for. -/
def codes (ps : ParameterList) (name : String) : List String :=
  headCodes name (String.ofList ps.header)
    (ps.rest.map fun r => (String.ofList r.name, ps.named.length))

theorem intercalate_parts (ps : ParameterList) :
    String.intercalate "," (ps.parts.map String.ofList) = String.ofList ps.header := by
  rw [intercalate_ofList, parts, intercalate_flatMap_splitOn, header]

/-- **The start of a definition** is the one that the parameters call for exactly if no comma of a
default value is taken for one of the list. -/
theorem codes_iff (ps : ParameterList) (name : String) :
    mixinCodes name (some (String.ofList ps.text)) = ps.codes name ↔ ps.IsLowered := by
  unfold mixinCodes
  dsimp only
  cases hr : ps.rest with
  | some r =>
    have hl : ps.IsLowered ↔ ps.named.length = ps.parts.length := by
      have hle : ps.named.length = (ps.named.map (·.text)).length := (length_map _).symm
      rw [hle, parts, (length_flatMap_splitOn _).2]
      simp [IsLowered, hr, NamedParameter.mem_text_iff]
    rw [splitParameters_text_rest hr, intercalate_parts, codes, hr, hl, length_map]
    refine ⟨fun h => (headCodes_inj_start h).symm, fun h => ?_⟩
    rw [h]
    rfl
  | none =>
    rcases splitParameters_text_named hr with ⟨heq, hl⟩ | ⟨hs, hl⟩
    · rw [heq, intercalate_parts, codes, hr]
      exact iff_of_true rfl hl
    · refine iff_of_false (fun h => ?_) hl
      obtain ⟨rest, hs⟩ := Option.isSome_iff_exists.mp hs
      rw [hs, codes, hr] at h
      simp [headCodes] at h

end ParameterList

/-- **The parameters of a mixin.** In every state in which the body of a mixin can be written, its
definition starts with the function that its parameters call for: a header with the named ones as they
are written, and code that collects the rest if there is one, from the right place on. This is so
exactly if no comma of a default value is taken for one of the list. -/
theorem emitNode_mixin_iff (ps : ParameterList) (env : WriterSetting) (body : Block)
    (s : WriterState) {t : WriterState} {ws : List Write}
    (h : emitBlock { env with mixinDepth := env.mixinDepth + 1 } body s = .ok ((), ws, t))
    (name : String) (location : Location) :
    emitNode env (.mixin name (some (String.ofList ps.text)) body location) s =
        .ok ((), (ps.codes name).map .statement ++ (ws ++ [.statement "\x7d;"]), t) ↔
      ps.IsLowered := by
  rw [← ps.codes_iff name, emitNode, emitMixinHead_eq]
  rw [bind_run_ok rfl, bind_run_ok h]
  have hinj : Function.Injective Write.statement := fun _ _ heq => Write.statement.inj heq
  simp [Except.map, statement, map_inj_right hinj]

/-- `mixin m(a = [1], ...b)` -/
theorem emitNode_mixin_iff_collecting :
    emitNode {} (.mixin "m" (some "a = [1], ...b") ⟨[], {}⟩ {}) {} =
      .ok ((), (headCodes "m" "a = [1]" (some ("b", 1))).map .statement ++
        [.statement "\x7d;"], {}) := by
  let ps : ParameterList := ⟨[⟨['a'], " = [1]".toList, ⟨_, rfl, by decide⟩, by decide⟩],
    some ⟨['b'], " ...b".toList, by decide, by decide +kernel⟩⟩
  exact (emitNode_mixin_iff ps {} ⟨[], {}⟩ {} rfl "m" {}).mpr (by simp [ps, ParameterList.IsLowered])

/-- `mixin m(a = [1, 2], ...b)` has one parameter before the rest, which is collected from the third
argument on. -/
theorem emitNode_mixin_comma :
    let ps : ParameterList := ⟨[⟨['a'], " = [1, 2]".toList, ⟨_, rfl, by decide⟩, by decide⟩],
      some ⟨['b'], " ...b".toList, by decide, by decide +kernel⟩⟩
    ps.named.length = 1 ∧
      emitNode {} (.mixin "m" (some (String.ofList ps.text)) ⟨[], {}⟩ {}) {} =
        .ok ((), (headCodes "m" "a = [1, 2]" (some ("b", 2))).map .statement ++
          [.statement "\x7d;"], {}) := by
  exact ⟨rfl, rfl⟩

end Program
end PugTemplate
