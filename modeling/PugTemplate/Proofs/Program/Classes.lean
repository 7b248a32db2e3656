import PugTemplate.Program.Attributes
import PugTemplate.Proofs.Script.ClassHelpers
/-!
# Constant classes

Class sources that are constant are worked out when the program is written. If all of them are, the
text of the attribute is known. If some are, they stand in the call of the helper as literals, which
have been escaped as values, and the call escapes the others. Nothing may come of that but the text
that the call gives when it is left to escape all of them.
-/

namespace PugTemplate

open List Markup
namespace Program

open Script (Helpers.classesArray Helpers.attr)
open Markup (joinNames)

/-! ## Code for classes -/

/-- An item in the call of the helper for classes. -/
inductive ClassTerm where
  | constant (value : Value)
  | source (source : String)
  deriving Repr

/-- An item, and whether the helper is to escape it. -/
structure ClassItem where
  term : ClassTerm
  escape : Bool
  deriving Repr

/-- The code of a class attribute. -/
inductive ClassCode where
  /-- There are no classes. -/
  | absent
  /-- The text is known. -/
  | known (text : String)
  /-- The helper is called for items. -/
  | call (items : List ClassItem)
  deriving Repr

def ClassTerm.code : ClassTerm → String
  | .constant value => value.script
  | .source code => code

namespace ClassCode

def callCode (env : AttributeSetting) (items : List ClassItem) : String :=
  env.reach .classes ++ "([" ++ String.intercalate "," (items.map (·.term.code)) ++ "], " ++
    (Value.array (items.map fun item => .bool item.escape)).script ++ ")"

def print (env : AttributeSetting) (code : ClassCode) : String :=
  match code, env.form with
  | .absent, .html => "\"\""
  | .absent, .object => "\x7b\x7d"
  | .known text, .html =>
    Text.Quoted.script (Markup.attributeText "class" (.string text) false env.terse)
  | .known text, .object =>
    "\x7b" ++ (Text.Quoted.script "class" ++ ": " ++ (Value.string text).script) ++ "\x7d"
  | .call items, .html =>
    env.reach .attr ++ "(" ++ Text.Quoted.script "class" ++ ", " ++ callCode env items ++ ", " ++
      boolCode false ++ ", " ++ boolCode env.terse ++ ")"
  | .call items, .object =>
    "\x7b" ++ (Text.Quoted.script "class" ++ ": " ++ callCode env items) ++ "\x7d"

end ClassCode

namespace AttributeSetting

variable (env : AttributeSetting)

/-- The item for an attribute. A constant is escaped now. -/
def classTerm (a : Attribute) : ClassItem :=
  match env.evaluator a.value.source with
  | some value => ⟨.constant (if a.escape then Markup.escapeValue value else value), false⟩
  | none => ⟨.source a.value.source, a.escape⟩

def classCode (classes : List Attribute) : ClassCode :=
  if classes.isEmpty then .absent
  else
    match classes.mapM fun a => env.evaluator a.value.source with
    | some values => .known (Markup.classes (.array values) (classes.map (·.escape)))
    | none => .call (classes.map env.classTerm)

theorem classItem_eq (a : Attribute) :
    env.classItem a = ((env.classTerm a).term.code, (env.classTerm a).escape) := by
  unfold classItem classTerm
  cases env.evaluator a.value.source <;> rfl

theorem code_classes {classes : List Attribute} (h : ∀ a ∈ classes, a.name = "class") :
    (env.code classes).code = (env.classCode classes).print env := by
  have ho : classes.filter (fun a => a.name != "class") = [] := by
    simpa using h
  have hc : classes.filter (fun a => a.name == "class") = classes := by
    simpa using h
  have hi : classes.map env.classItem =
      (classes.map env.classTerm).map fun item => (item.term.code, item.escape) := by
    rw [map_map]
    exact map_congr_left fun a _ => env.classItem_eq a
  -- all parts of the code are those of the classes, and there is one part at most
  unfold code
  rw [ho, hc]
  unfold classParts classCode
  by_cases hem : classes.isEmpty
  · rw [if_pos hem, if_pos hem]
    cases hf : env.form <;> simp only [ClassCode.print, hf] <;> rfl
  · rw [if_neg hem, if_neg hem]
    cases hfo : classes.mapM fun a => env.evaluator a.value.source with
    | some values =>
      cases hf : env.form <;> simp only [ClassCode.print, add, hf] <;> rfl
    | none =>
      simp only [hi]
      cases hf : env.form <;>
        simp only [ClassCode.print, ClassCode.callCode, add, hf, map_map] <;> rfl

end AttributeSetting

/-! ## Running the code -/

/-- The value of an item, whose source has a value. -/
def ClassItem.value (item : ClassItem) (value : Value) : Value :=
  match item.term with
  | .constant c => c
  | .source _ => value

namespace ClassCode

/-- The text of the attribute, when the sources have some values. -/
def text (values : List Value) : ClassCode → String
  | .absent => ""
  | .known text => text
  | .call items =>
    (Helpers.classesArray (List.zipWith ClassItem.value items values)
      (items.map (·.escape)) {}).names

/-- What the code gives, when the sources have some values: the markup of the attribute, or its text
in an object. -/
def result (env : AttributeSetting) (values : List Value) (code : ClassCode) : String :=
  match env.form, code with
  | .html, .absent => ""
  | .html, .known text => Markup.attributeText "class" (.string text) false env.terse
  | .html, .call items => Helpers.attr "class" (text values (.call items)) false
  | .object, code => text values code

theorem result_html {env : AttributeSetting} (h : env.form = .html) (values : List Value)
    (code : ClassCode) :
    result env values code = Helpers.attr "class" (code.text values) false := by
  unfold result
  rw [h]
  cases code with
  | absent => rfl
  | known text => exact (Script.Helpers.attr_class text env.terse).symm
  | call items => rfl

theorem result_eq_iff (env : AttributeSetting) (evaluator : Evaluator) (values : List Value)
    (first second : ClassCode) :
    result env values first = result { env with evaluator } values second ↔
      first.text values = second.text values := by
  cases hf : env.form with
  | html =>
    rw [result_html hf, result_html rfl]
    exact ⟨Script.Helpers.attr_class_inj, fun h => by rw [h]⟩
  | object => simp only [result, hf]

end ClassCode

/-! ## Sources and their values -/

/-- A class attribute, and the value that its source has when the program runs. A constant has the
value that it is folded to. -/
structure ClassSource (evaluator : Evaluator) where
  attr : Attribute
  value : Value
  isClass : attr.name = "class"
  isWhole : value.isWhole = true
  isTrue : ∀ c, evaluator attr.value.source = some c → value = c

namespace ClassSource

variable {evaluator : Evaluator}

def isFolded (s : ClassSource evaluator) : Bool := (evaluator s.attr.value.source).isSome

/-- The names of the source, if the call is left to escape them. -/
def plainName (s : ClassSource evaluator) : String :=
  if s.attr.escape then Markup.escape (Markup.classNames s.value)
  else Markup.classNames s.value

/-- The names of the source, if a constant has been escaped before. -/
def foldedName (s : ClassSource evaluator) : String :=
  if s.isFolded && s.attr.escape then Markup.classNames (Markup.escapeValue s.value)
  else s.plainName

theorem alike (s : ClassSource evaluator) :
    Markup.Alike s.plainName.toList s.foldedName.toList := by
  unfold foldedName
  split
  · next h =>
    simp only [Bool.and_eq_true] at h
    rw [plainName, if_pos h.2]
    exact alike_escapeValue s.isWhole
  · exact .refl _

/-- The names with and without folding are equal unless a source that is folded and escaped does not
fold exactly. -/
theorem plainName_eq_iff (s : ClassSource evaluator) : s.plainName = s.foldedName ↔
      (s.isFolded → s.attr.escape → foldsExactly s.value) := by
  rw [foldsExactly_iff s.isWhole, foldedName]
  by_cases h : (s.isFolded && s.attr.escape) = true
  · rw [if_pos h]
    simp only [Bool.and_eq_true] at h
    rw [plainName, if_pos h.2]
    exact ⟨fun heq _ _ => heq.symm, fun heq => (heq h.1 h.2).symm⟩
  · rw [if_neg h]
    simp only [Bool.and_eq_true, not_and] at h
    exact ⟨fun _ hf he => absurd he (h hf), fun _ => rfl⟩

end ClassSource

section Sources

variable {evaluator : Evaluator} (sources : List (ClassSource evaluator))

theorem isWhole_escapeValue {v : Value} (h : v.isWhole) : (escapeValue v).isWhole := by
  unfold escapeValue
  split
  · rfl
  · dsimp only
    split
    · rfl
    · exact h

/-- All sources are folded to their values, or there is a source that is not. -/
theorem mapM_evaluator : ((sources.map (·.attr)).mapM fun a => evaluator a.value.source) =
      if sources.all (·.isFolded) then some (sources.map (·.value)) else none := by
  induction sources with
  | nil => rfl
  | cons s rest ih =>
    rw [map_cons, mapM_cons, ih]
    cases hs : evaluator s.attr.value.source with
    | none => simp [ClassSource.isFolded, hs]
    | some c =>
      have hv := s.isTrue c hs
      have hf : s.isFolded := by simp [ClassSource.isFolded, hs]
      by_cases hr : rest.all (·.isFolded) = true <;> simp [hf, hr, hv]

theorem escapedItems_plain : escapedItems (sources.map (·.value)) (sources.map (·.attr.escape)) =
      sources.map ClassSource.plainName := by
  induction sources with
  | nil => rfl
  | cons s rest ih =>
    simp only [map_cons, escapedItems, headD_cons, tail_cons, ih]
    rfl

end Sources

theorem classTerm_value (env : AttributeSetting) (s : ClassSource env.evaluator) :
    (env.classTerm s.attr).value s.value =
        (if s.isFolded && s.attr.escape then escapeValue s.value else s.value) ∧
      (env.classTerm s.attr).escape = (!s.isFolded && s.attr.escape) := by
  unfold AttributeSetting.classTerm ClassSource.isFolded
  cases hs : env.evaluator s.attr.value.source with
  | none => simp [ClassItem.value]
  | some c =>
    rw [s.isTrue c hs]
    simp [ClassItem.value]

/-- The names of the sources, as they come out of the call with its constants. -/
theorem escapedItems_folded (env : AttributeSetting) (sources : List (ClassSource env.evaluator)) :
    escapedItems (List.zipWith ClassItem.value ((sources.map (·.attr)).map env.classTerm)
          (sources.map (·.value)))
        (((sources.map (·.attr)).map env.classTerm).map (·.escape)) =
      sources.map ClassSource.foldedName := by
  induction sources with
  | nil => rfl
  | cons s rest ih =>
    obtain ⟨hv, hes⟩ := classTerm_value env s
    simp only [map_cons, zipWith_cons_cons, escapedItems, headD_cons,
      tail_cons, ih, hv, hes, cons.injEq, and_true]
    unfold ClassSource.foldedName ClassSource.plainName
    cases s.isFolded <;> cases s.attr.escape <;> rfl

theorem areWhole_items (env : AttributeSetting) (sources : List (ClassSource env.evaluator)) :
    Value.areWhole (List.zipWith ClassItem.value ((sources.map (·.attr)).map env.classTerm)
      (sources.map (·.value))) := by
  induction sources with
  | nil => rfl
  | cons s rest ih =>
    have hv : ((env.classTerm s.attr).value s.value).isWhole := by
      rw [(classTerm_value env s).1]
      split
      · exact isWhole_escapeValue s.isWhole
      · exact s.isWhole
    simp only [map_cons, zipWith_cons_cons, Value.areWhole, hv, ih, Bool.and_self]

theorem text_classCode (env : AttributeSetting) (sources : List (ClassSource env.evaluator)) :
    (env.classCode (sources.map (·.attr))).text (sources.map (·.value)) =
      if sources.all (·.isFolded) then joinNames (sources.map ClassSource.plainName)
      else joinNames (sources.map ClassSource.foldedName) := by
  have hp : classes (.array (sources.map (·.value))) ((sources.map (·.attr)).map (·.escape)) =
      joinNames (sources.map ClassSource.plainName) := by
    rw [map_map]
    exact congrArg joinNames (escapedItems_plain sources)
  have hf : (Helpers.classesArray
      (zipWith ClassItem.value ((sources.map (·.attr)).map env.classTerm) (sources.map (·.value)))
      (((sources.map (·.attr)).map env.classTerm).map (·.escape)) {}).names =
      joinNames (sources.map ClassSource.foldedName) := by
    rw [Script.Helpers.names_classesArray (areWhole_items env sources), classes_array,
      escapedItems_folded]
  unfold AttributeSetting.classCode
  rw [mapM_evaluator]
  cases sources with
  -- no sources: no code, and no names
  | nil => rfl
  | cons s rest =>
    by_cases ha : (s :: rest).all (·.isFolded)
    · rw [if_pos ha, if_pos ha]
      exact hp
    · rw [if_neg ha, if_neg ha]
      exact hf

/-- The source of an attribute, if nothing is folded. -/
def ClassSource.unfolded {evaluator : Evaluator} (s : ClassSource evaluator) :
    ClassSource .foldNothing :=
  { attr := s.attr, value := s.value, isClass := s.isClass, isWhole := s.isWhole
    isTrue := fun _ h => absurd h (by simp [Evaluator.foldNothing]) }

theorem text_foldNothing (env : AttributeSetting) (sources : List (ClassSource env.evaluator)) :
    (AttributeSetting.classCode { env with evaluator := .foldNothing }
        (sources.map (·.attr))).text (sources.map (·.value)) =
      joinNames (sources.map ClassSource.plainName) := by
  -- the sources with an evaluator that knows nothing have the same names, folded or not
  have h := text_classCode { env with evaluator := .foldNothing } (sources.map ClassSource.unfolded)
  simp only [map_map, Function.comp_def] at h
  have hn (s : ClassSource env.evaluator) : s.unfolded.foldedName = s.plainName := rfl
  simp only [hn] at h
  have hp (s : ClassSource env.evaluator) : s.unfolded.plainName = s.plainName := rfl
  simp only [hp, ite_self] at h
  exact h

/-- The texts with and without constants agree exactly if all sources are constant, or every
constant that is escaped folds exactly. -/
theorem text_eq_iff (env : AttributeSetting) (sources : List (ClassSource env.evaluator)) :
    (env.classCode (sources.map (·.attr))).text (sources.map (·.value)) =
        (AttributeSetting.classCode { env with evaluator := .foldNothing }
          (sources.map (·.attr))).text (sources.map (·.value)) ↔
      (∀ s ∈ sources, s.isFolded) ∨ ∀ s ∈ sources, s.isFolded →
        s.attr.escape → foldsExactly s.value := by
  rw [text_classCode, text_foldNothing]
  by_cases ha : sources.all (·.isFolded)
  · rw [if_pos ha]
    exact ⟨fun _ => .inl (all_eq_true.mp ha), fun _ => rfl⟩
  · rw [if_neg ha, joinNames_eq_iff, eq_comm]
    have hpa : ∀ p ∈ sources.map fun s => (s.plainName.toList, s.foldedName.toList),
        Alike p.1 p.2 := by
      intro p hp
      obtain ⟨s, -, rfl⟩ := mem_map.mp hp
      exact s.alike
    have hs := spaced_eq_iff hpa
    simp only [map_map, Function.comp_def, forall_mem_map, String.toList_inj,
      ClassSource.plainName_eq_iff] at hs ⊢
    rw [hs]
    constructor
    · exact .inr
    · rintro (hf | hex)
      · exact absurd (all_eq_true.mpr hf) ha
      · exact hex

/-! ## Results -/

end Program
end PugTemplate
