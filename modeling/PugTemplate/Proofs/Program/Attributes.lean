import PugTemplate.Program.Attributes
import PugTemplate.Proofs.Script.Literals
import PugTemplate.Proofs.Script.Runtime
import PugTemplate.Proofs.Text.Literal
/-!
# The code of attributes

Attributes other than classes are written each for itself: as calls of helpers, and as literals where
they are constant. Literals beside each other become one literal, whose quotes are those of the first
and the last one. What the code gives is what its parts give, one behind the other.
-/

namespace PugTemplate

open List
namespace Program

open Script (Datum Run Units)
open Script.Units (ofText)
open Text.Quoted (script)

/-! ## Values while a program runs -/

/-- A value while a program runs: one that a literal may give, or any other, such as a function. -/
inductive LiveValue (φ : Type) where
  | datum (d : Datum)
  | foreign (f : φ)

/-- What a program finds when it runs. The helpers are known for values that literals may give; what
they do with other values is up to these values. -/
structure Scope (φ : Type) where
  /-- The value of a source that is one argument of a call. -/
  value : String → Run (LiveValue φ)
  attr : Units → φ → Bool → Bool → Run Units
  style : φ → Run Units
  escape : φ → Run (LiveValue φ)

namespace Scope

variable {φ : Type} (scope : Scope φ)

/-- A call of the helper `attr`. -/
def callAttr (key : Units) (v : LiveValue φ) (escaped terse : Bool) : Run Units :=
  match v with
  | .datum d => Script.Runtime.attr key d escaped terse
  | .foreign f => scope.attr key f escaped terse

/-- A call of the helper `style`. -/
def callStyle : LiveValue φ → Run (LiveValue φ)
  | .datum d => (fun text => .datum (.string text)) <$> Script.Runtime.style d
  | .foreign f => (fun text => .datum (.string text)) <$> scope.style f

/-- A call of the helper `escape`. -/
def callEscape : LiveValue φ → Run (LiveValue φ)
  | .datum d => .datum <$> Script.Runtime.escape d
  | .foreign f => scope.escape f

/-- An evaluator is right about the sources that it knows. -/
def Truthful (evaluator : Evaluator) : Prop :=
  ∀ source c, evaluator source = some c →
    c.isData = true ∧ scope.value source = .ok (.datum (Datum.of c))

end Scope

/-! ## Code for attributes -/

/-- What gives the value of an attribute when the program runs. -/
inductive Term where
  | source (code : String)
  /-- The helper `style` is called for the source. -/
  | style (code : String)
  deriving DecidableEq

/-- The value of an attribute: a constant, or a term. -/
inductive FoldedTerm where
  | constant (value : Value)
  | dynamic (term : Term)

/-- A part of the code for markup. -/
inductive HtmlPart where
  | literal (text : String)
  /-- The helper `attr` is called. -/
  | call (key : String) (value : Term) (escape : Bool)
  deriving DecidableEq

/-- The value of an entry in the code for an object. -/
inductive EntryValue where
  | literal (value : Value)
  /-- The helper `escape` is called, or not. -/
  | term (value : Term) (escape : Bool)

/-- An entry in the code for an object. -/
structure EntryPart where
  key : String
  value : EntryValue

/-- The code of a list of attributes. -/
inductive AttributeCode where
  | html (parts : List HtmlPart)
  | object (entries : List EntryPart)

/-- Adds a part. A literal behind a literal is joined to it. -/
def addPart (p : HtmlPart) : List HtmlPart → List HtmlPart
  | [] => [p]
  | [last] =>
    match last, p with
    | .literal s, .literal t => [.literal (s ++ t)]
    | last, p => [last, p]
  | part :: parts => part :: addPart p parts

/-- Parts in turn, with literals beside each other joined. -/
def joinParts (parts : List HtmlPart) : List HtmlPart := parts.foldl (fun acc p => addPart p acc) []

namespace AttributeSetting

variable (env : AttributeSetting)

/-- The value of an attribute other than a class. -/
def foldTerm (a : Attribute) : FoldedTerm :=
  let isStyle := a.name == "style"
  match env.evaluator a.value.source with
  | some v => .constant (if isStyle then .string (Markup.style v) else v)
  | none => .dynamic (if isStyle then .style a.value.source else .source a.value.source)

/-- The part for an attribute in the code for markup. -/
def htmlPart (a : Attribute) : HtmlPart :=
  match env.foldTerm a with
  | .constant v => .literal (Markup.attributeText a.name v a.escape env.terse)
  | .dynamic t => .call a.name t a.escape

/-- The entry for an attribute in the code for an object. -/
def entryPart (a : Attribute) : EntryPart :=
  { key := a.name
    value := match env.foldTerm a with
      | .constant v => .literal (if a.escape then Markup.escapeValue v else v)
      | .dynamic t => .term t a.escape }

/-- The code of attributes other than classes. -/
def attributeCode (attributes : List Attribute) : AttributeCode :=
  match env.form with
  | .html => .html (joinParts (attributes.map env.htmlPart))
  | .object => .object (attributes.map env.entryPart)

end AttributeSetting

/-! ### How the code is written -/

def Term.print (env : AttributeSetting) : Term → String
  | .source code => code
  | .style code => env.reach .style ++ "(" ++ code ++ ")"

def HtmlPart.print (env : AttributeSetting) : HtmlPart → String
  | .literal text => script text
  | .call key value escape =>
    env.reach .attr ++ "(" ++ script key ++ ", " ++ value.print env ++ ", " ++ boolCode escape ++
      ", " ++ boolCode env.terse ++ ")"

def EntryValue.print (env : AttributeSetting) : EntryValue → String
  | .literal value => value.script
  | .term value false => value.print env
  | .term value true => env.reach .escape ++ "(" ++ value.print env ++ ")"

def EntryPart.print (env : AttributeSetting) (e : EntryPart) : String :=
  script e.key ++ ": " ++ e.value.print env

def AttributeCode.print (env : AttributeSetting) : AttributeCode → String
  | .html [] => "\"\""
  | .html parts => String.intercalate "+" (parts.map (·.print env))
  | .object entries => "\x7b" ++ String.intercalate "," (entries.map (·.print env)) ++ "\x7d"

theorem endsWith_quote_iff (s : String) : s.endsWith "\"" ↔ s.toList.getLast? = some '"' := by
  have hen : s.endsWith "\"" ↔ ['"'] <:+ s.toList := by
    rw [← String.endsWith_toSlice, String.Slice.endsWith_string_iff, String.copy_toSlice]
    rfl
  rw [hen]
  rcases eq_nil_or_concat s.toList with hn | ⟨front, c, hc⟩
  · simp [hn]
  · simp [hc, eq_comm]

theorem toList_script (s : String) :
    (script s).toList = '"' :: s.toList.flatMap Text.Quoted.scriptEscape ++ ['"'] := by
  simp [script, Text.Quoted.quote]

theorem script_join (before text : String) :
    String.ofList ((script before).toList.dropLast ++ (script text).toList.tail) =
      script (before ++ text) := by
  rw [← String.toList_inj, String.toList_ofList, toList_script, toList_script, toList_script,
    dropLast_concat, String.toList_append, flatMap_append]
  simp only [cons_append, tail_cons, append_assoc]

/-- **Literals beside each other** are written as one by cutting off the quotes between them. -/
theorem addLiteral_print (env : AttributeSetting) (text : String) (parts : List HtmlPart) :
    addLiteral (script text) (parts.map (·.print env)) =
      (addPart (.literal text) parts).map (·.print env) := by
  induction parts with
  | nil => rfl
  | cons part parts ih =>
    cases parts with
    | cons next parts => exact congrArg (part.print env :: ·) ih
    | nil =>
      cases part with
      | literal before =>
        have hen : (script before).endsWith "\"" := by
          rw [endsWith_quote_iff, toList_script, getLast?_concat]
        show (if (script before).endsWith "\"" then
          [String.ofList ((script before).toList.dropLast ++ (script text).toList.tail)]
          else _) = [script (before ++ text)]
        rw [if_pos hen, script_join]
      | call key value escape =>
        have hen : ¬((HtmlPart.call key value escape).print env).endsWith "\"" := by
          rw [endsWith_quote_iff, HtmlPart.print, String.toList_append]
          show ¬(_ ++ [')']).getLast? = _
          rw [getLast?_concat]
          decide
        show (if ((HtmlPart.call key value escape).print env).endsWith "\"" then _ else _) = _
        rw [if_neg hen]
        rfl

theorem addPart_call (key : String) (value : Term) (escape : Bool) (parts : List HtmlPart) :
    addPart (.call key value escape) parts = parts ++ [.call key value escape] := by
  induction parts with
  | nil => rfl
  | cons part parts ih =>
    cases parts with
    | cons next parts => exact congrArg (part :: ·) ih
    | nil => cases part <;> rfl

namespace AttributeSetting

variable (env : AttributeSetting)

theorem code_foldValue (a : Attribute) : (env.foldValue a).code =
      match env.foldTerm a with
      | .constant v => .constant v
      | .dynamic t => .dynamic (t.print env) := by
  unfold foldValue foldTerm foldStyle fold
  cases env.evaluator a.value.source with
  | none | some v => cases a.name == "style" <;> rfl

theorem code_addOthers_html (hf : env.form = .html) (attributes : List Attribute)
    (parts : List HtmlPart) (acc : Coded (List String))
    (ha : acc.code = parts.map (·.print env)) :
    (env.addOthers attributes acc).code =
      ((attributes.map env.htmlPart).foldl (fun acc p => addPart p acc) parts).map
        (·.print env) := by
  induction attributes generalizing parts acc with
  | nil => exact ha
  | cons a attributes ih =>
    refine ih (addPart (env.htmlPart a) parts) _ ?_
    show (env.add a.name (env.foldValue a).code a.escape acc.code).code = _
    rw [code_foldValue, ha, htmlPart]
    unfold add
    rw [hf]
    cases env.foldTerm a with
    | constant v => exact addLiteral_print env _ parts
    | dynamic t =>
      rw [addPart_call, map_append]
      rfl

theorem code_addOthers_object (hf : env.form = .object) (attributes : List Attribute)
    (acc : Coded (List String)) :
    (env.addOthers attributes acc).code =
      acc.code ++ (attributes.map env.entryPart).map (·.print env) := by
  induction attributes generalizing acc with
  | nil => exact (append_nil _).symm
  | cons a attributes ih =>
    have hn : (env.addOther a acc).code = acc.code ++ [(env.entryPart a).print env] := by
      show (env.add a.name (env.foldValue a).code a.escape acc.code).code = _
      rw [code_foldValue, entryPart]
      unfold add
      rw [hf]
      cases env.foldTerm a with
      | constant v => rfl
      | dynamic t =>
        cases a.escape with
        | false => rfl
        | true =>
          dsimp only
          rw [if_pos rfl]
          simp only [EntryPart.print, EntryValue.print, String.append_assoc]
    rw [addOthers, ih, hn, append_assoc]
    rfl

/-- **The code of attributes other than classes** is written as the parts that it is made of. -/
theorem code_others {attributes : List Attribute} (h : ∀ a ∈ attributes, a.name ≠ "class") :
    (env.code attributes).code = (env.attributeCode attributes).print env := by
  have hc : attributes.filter (fun a => a.name == "class") = [] := by
    simpa using h
  have ho : attributes.filter (fun a => a.name != "class") = attributes := by
    simpa using h
  unfold code attributeCode
  rw [hc, ho]
  cases hf : env.form with
  | html =>
    have hp := env.code_addOthers_html hf attributes [] { code := [] } rfl
    dsimp only
    rw [hp]
    unfold joinParts
    cases (attributes.map env.htmlPart).foldl (fun acc p => addPart p acc) [] with
    | nil => rfl
    | cons part parts => rfl
  | object =>
    dsimp only
    rw [env.code_addOthers_object hf]
    rfl

end AttributeSetting

/-! ## Running the code -/

/-- What the code gives: markup, or the entries of an object in their order. -/
inductive AttributeResult (φ : Type) where
  | text (units : Units)
  | object (entries : List (Units × LiveValue φ))

/-- One result behind another of the same form. -/
def AttributeResult.append {φ : Type} : AttributeResult φ → AttributeResult φ → AttributeResult φ
  | .text s, .text t => .text (s ++ t)
  | .object s, .object t => .object (s ++ t)
  | r, _ => r

/-- Runs in turn, with their results behind each other. -/
def inTurn {β : Type} : List (Run (List β)) → Run (List β)
  | [] => .ok []
  | x :: xs => do
    let first ← x
    let rest ← inTurn xs
    pure (first ++ rest)

/-- The text that a script reads from the code of a string literal. -/
def literalText? (code : String) : Option String :=
  match Script.readString '"' code.toList.tail with
  | some (inside, []) => Script.unescape (String.ofList inside)
  | _ => none

theorem literalText?_script (text : String) : literalText? (script text) = some text := by
  obtain ⟨hr, ht⟩ := Text.Quoted.denotes_body text
  have hta : (script text).toList.tail = (Text.Quoted.body text).toList ++ ['"'] := by
    rw [Text.Quoted.script_eq_body]
    simp
  unfold literalText?
  rw [hta, hr []]
  simpa using ht

/-- The text of a literal, as it is read again. -/
def reread (text : String) : String :=
  (literalText? (script text)).get (by rw [literalText?_script]; rfl)

@[simp] theorem reread_eq (text : String) : reread text = text := by
  simp [reread, literalText?_script]

section Run

variable {φ : Type} (scope : Scope φ) (terse : Bool)

def Term.run : Term → Run (LiveValue φ)
  | .source code => scope.value code
  | .style code => do
    let v ← scope.value code
    scope.callStyle v

def HtmlPart.run : HtmlPart → Run Units
  | .literal text => .ok (ofText (reread text))
  | .call key value escape => do
    let v ← value.run scope
    scope.callAttr (ofText (reread key)) v escape terse

def EntryValue.run : EntryValue → Run (LiveValue φ)
  | .literal value => .ok (.datum (Datum.literal value))
  | .term value escape => do
    let v ← value.run scope
    if escape then scope.callEscape v else pure v

def EntryPart.run (e : EntryPart) : Run (List (Units × LiveValue φ)) :=
  (fun v => [(ofText (reread e.key), v)]) <$> e.value.run scope

def AttributeCode.run : AttributeCode → Run (AttributeResult φ)
  | .html parts => .text <$> inTurn (parts.map (·.run scope terse))
  | .object entries => .object <$> inTurn (entries.map (·.run scope))

end Run

/-! ### Joining -/

theorem inTurn_append {β : Type} (xs ys : List (Run (List β))) : inTurn (xs ++ ys) = (do
      let first ← inTurn xs
      let rest ← inTurn ys
      pure (first ++ rest)) := by
  induction xs with
  | nil =>
    show inTurn ys = (inTurn ys >>= fun rest => pure rest)
    rw [bind_pure]
  | cons x xs ih =>
    show (x >>= fun first => inTurn (xs ++ ys) >>= fun rest => pure (first ++ rest)) = _
    rw [ih, inTurn]
    cases x with
    | error e => rfl
    | ok first =>
      cases inTurn xs with
      | error e => rfl
      | ok middle =>
        cases inTurn ys with
        | error e => rfl
        | ok rest => exact congrArg Except.ok (append_assoc first middle rest).symm

theorem inTurn_cons_eq_ok {β : Type} {x : Run (List β)} {xs : List (Run (List β))} {r : List β}
    (h : inTurn (x :: xs) = .ok r) :
    ∃ first rest, x = .ok first ∧ inTurn xs = .ok rest ∧ r = first ++ rest := by
  rw [inTurn] at h
  cases x with
  | error e => cases h
  | ok first =>
    cases hr : inTurn xs with
    | error e =>
      rw [hr] at h
      cases h
    | ok rest =>
      rw [hr] at h
      cases h
      exact ⟨first, rest, rfl, rfl, rfl⟩

section Joining

variable {φ : Type} (scope : Scope φ) (terse : Bool)

/-- **A literal that is joined** to the one before it gives the same as on its own. -/
theorem run_addPart (p : HtmlPart) (parts : List HtmlPart) :
    inTurn ((addPart p parts).map (·.run scope terse)) =
      inTurn ((parts ++ [p]).map (·.run scope terse)) := by
  induction parts with
  | nil => rfl
  | cons part parts ih =>
    cases parts with
    | cons next parts =>
      show inTurn (part.run scope terse :: (addPart p (next :: parts)).map _) = _
      rw [inTurn, ih]
      rfl
    | nil =>
      cases part with
      | call key value escape => rfl
      | literal before =>
        cases p with
        | call key value escape => rfl
        | literal text =>
          show Except.ok (ofText (reread (before ++ text)) ++ []) =
            Except.ok (ofText (reread before) ++ (ofText (reread text) ++ []))
          simp

theorem run_joinParts (parts : List HtmlPart) : inTurn ((joinParts parts).map (·.run scope terse)) =
      inTurn (parts.map (·.run scope terse)) := by
  have hf (before : List HtmlPart) :
      inTurn ((parts.foldl (fun acc p => addPart p acc) before).map (·.run scope terse)) =
        inTurn ((before ++ parts).map (·.run scope terse)) := by
    induction parts generalizing before with
    | nil => rw [append_nil, foldl_nil]
    | cons p parts ih =>
      rw [foldl_cons, ih, map_append, inTurn_append, run_addPart, ← inTurn_append,
        ← map_append, append_assoc]
      rfl
  exact hf []

/-- **Attributes are written each for itself**: what a list of them gives is what its parts give, one
behind the other. -/
theorem run_attributeCode_append (env : AttributeSetting) (front back : List Attribute) :
    (env.attributeCode (front ++ back)).run scope terse = (do
      let first ← (env.attributeCode front).run scope terse
      let rest ← (env.attributeCode back).run scope terse
      pure (first.append rest)) := by
  unfold AttributeSetting.attributeCode
  cases env.form with
  | html =>
    simp only [AttributeCode.run, run_joinParts, map_append, inTurn_append]
    cases inTurn ((front.map env.htmlPart).map (·.run scope terse)) with
    | error e => rfl
    | ok first => cases inTurn ((back.map env.htmlPart).map (·.run scope terse)) <;> rfl
  | object =>
    simp only [AttributeCode.run, map_append, inTurn_append]
    cases inTurn ((front.map env.entryPart).map (·.run scope)) with
    | error e => rfl
    | ok first => cases inTurn ((back.map env.entryPart).map (·.run scope)) <;> rfl

end Joining

end Program
end PugTemplate
