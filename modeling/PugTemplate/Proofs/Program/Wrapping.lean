import PugTemplate.Program.Locals
import PugTemplate.Proofs.Script.Scopes
/-!
# Bodies inside of functions

A body that uses variables from outside is put into a function that has these variables as its
parameters, and the function is called with one argument for each of them. The object that the
arguments are taken from has a name that the body does not mention, so it is out of the way of
whatever the body uses.
-/

namespace PugTemplate

open List
namespace Script

/-! ## Uses of variables -/

/-- The uses of variables that a script does not declare, in the order of the text, as far as the
parser has made a tree of it. -/
def Parser.openUses (parse : Parser) (script : String) : List String :=
  ((parse script).map fun root => Syntax.reported root.scriptOccurrences).getD []

theorem Parser.freeVariables_eq_eraseDups (parse : Parser) (script : String) :
    parse.freeVariables script = (parse.openUses script).eraseDups := by
  unfold openUses
  cases h : parse script with
  | none =>
    unfold freeVariables
    rw [h]
    rfl
  | some root => exact freeVariables_eq h

theorem idxOf_lt_of_filter {p : String → Bool} {a b : String} (ha : p a) (hb : p b)
    {uses : List String} (h : (uses.filter p).idxOf a < (uses.filter p).idxOf b) :
    uses.idxOf a < uses.idxOf b := by
  induction uses with
  | nil => exact h
  | cons use uses ih => grind

theorem pairwise_eraseDups (uses : List String) :
    uses.eraseDups.Pairwise fun a b => uses.idxOf a < uses.idxOf b := by
  induction hl : uses.length using Nat.strongRecOn generalizing uses with
  | ind n ih =>
    cases uses with
    | nil => exact .nil
    | cons use uses =>
      subst hl
      have hm : ∀ name ∈ (uses.filter fun b => !b == use).eraseDups, (!name == use) = true :=
        fun _ hn => (mem_filter.mp (mem_eraseDups.mp hn)).2
      have hf : (use :: uses).filter (fun b => !b == use) = uses.filter fun b => !b == use := by simp
      rw [eraseDups_cons, pairwise_cons]
      constructor
      · intro name hn
        have hne := hm name hn
        grind
      · refine (ih _ (Nat.lt_succ_of_le (length_filter_le ..)) _ rfl).imp_of_mem fun ha hb hlt => ?_
        exact idxOf_lt_of_filter (hm _ ha) (hm _ hb) (hf ▸ hlt)

end Script

namespace Program

/-! ## The name of the object -/

theorem occursIn_iff {part cs : List Char} : occursIn part cs ↔ part <:+: cs := by
  induction cs with
  | nil => simp [occursIn]
  | cons c cs ih => rw [occursIn, Bool.or_eq_true, isPrefixOf_iff_prefix, ih, infix_cons_iff]

/-- The search stops at the first name that does not occur, if it may go on until names are longer
than the body. -/
theorem lengthen_first {body : List Char} {turns : Nat} {name : List Char}
    (h : body.length < name.length + turns) :
    ∃ n, lengthen body turns name = name ++ replicate n '_' ∧
      ¬ name ++ replicate n '_' <:+: body ∧ ∀ m < n, name ++ replicate m '_' <:+: body := by
  induction turns generalizing name with
  | zero => exact ⟨0, (append_nil name).symm, fun hi => absurd hi.length_le (by simpa using h), nofun⟩
  | succ turns ih =>
    rw [lengthen]
    by_cases ho : name <:+: body
    · obtain ⟨n, he, hn, hm⟩ := @ih (name ++ ['_']) (by simp; omega)
      rw [if_pos (occursIn_iff.mpr ho)]
      simp only [append_assoc, singleton_append, ← replicate_succ] at he hn hm
      refine ⟨n + 1, he, hn, fun m hlt => ?_⟩
      cases m with
      | zero => rwa [replicate_zero, append_nil]
      | succ m => exact hm m (Nat.lt_of_succ_lt_succ hlt)
    · rw [if_neg (mt occursIn_iff.mp ho)]
      exact ⟨0, (append_nil name).symm, by rwa [replicate_zero, append_nil], nofun⟩

/-! ## The function and its call -/

/-- A function with a body, and its call. -/
structure Wrapper where
  /-- The name of the object that holds the values. -/
  object : String
  parameters : List String
  body : String
  arguments : List String

def Wrapper.text (w : Wrapper) : String :=
  ";var " ++ w.object ++ " = (locals || \x7b\x7d);(function (" ++
    String.intercalate ", " w.parameters ++ ") \x7b" ++ w.body ++ "\x7d.call(this" ++
    String.join (w.arguments.map ("," ++ ·)) ++ "));"

/-- The value of a variable: the member of the object, or else what the variable is outside. -/
def valueOf (object name : String) : String :=
  "\"" ++ name ++ "\" in " ++ object ++ " ? " ++ object ++ "." ++ name ++ " : typeof " ++ name ++
    " !== \"undefined\" ? " ++ name ++ " : undefined"

theorem argument_eq (object name : String) : argument object name = "," ++ valueOf object name := by
  delta argument valueOf
  simp only [← String.append_assoc]
  rfl

theorem wrapLocals_eq (parse : Script.Parser) (body : String) (exclude : List String) :
    let names := parameterNames parse body exclude
    wrapLocals parse body exclude = if names = [] then body
      else Wrapper.text ⟨freshName body, names, body, names.map (valueOf (freshName body))⟩ := by
  have ha := funext (argument_eq (freshName body))
  delta wrapLocals Wrapper.text
  simp only [ha, List.isEmpty_iff, map_map, Function.comp_def]

/-- **Nothing is captured by the function around a body.** The search for the name of the object ends
at the first one that the body does not mention. The parameters are the variables that the body uses
and that are left, in the order of their first uses. If there are any, the body stands as it is in a
function of these parameters, which is called with one argument for each of them. -/
theorem wrapLocals_captureFree (parse : Script.Parser) (body : String) (exclude : List String) :
    let object := freshName body
    let names := parameterNames parse body exclude
    let uses := parse.openUses body
    (∃ n, object.toList = "locals_for_with".toList ++ replicate n '_' ∧
      ¬ object.toList <:+: body.toList ∧
      ∀ m < n, "locals_for_with".toList ++ replicate m '_' <:+: body.toList) ∧
    (∀ name, name ∈ names ↔ name ∈ uses ∧ name ∉ internalNames ∧ name ∉ exclude ∧
      name ∉ reservedNames) ∧
    names.Nodup ∧ names.Pairwise (fun a b => uses.idxOf a < uses.idxOf b) ∧
    wrapLocals parse body exclude = if names = [] then body
      else Wrapper.text ⟨object, names, body, names.map (valueOf object)⟩ := by
  intro object names uses
  have hnames : names = uses.eraseDups.filter fun name =>
      !internalNames.contains name && !exclude.contains name && !reservedNames.contains name := by
    rw [← parse.freeVariables_eq_eraseDups]
    rfl
  have hordered : names.Pairwise fun a b => uses.idxOf a < uses.idxOf b := by
    rw [hnames]
    exact (Script.pairwise_eraseDups uses).filter _
  have hdistinct : names.Nodup :=
    hordered.imp fun hlt => ne_of_apply_ne uses.idxOf (Nat.ne_of_lt hlt)
  refine ⟨?_, fun name => ?_, hdistinct, hordered, wrapLocals_eq parse body exclude⟩
  · obtain ⟨n, hobject, habsent, hbefore⟩ := @lengthen_first body.toList (body.length + 1)
      "locals_for_with".toList (by rw [String.length_toList]; omega)
    have hlist : object.toList = _ := String.toList_ofList.trans hobject
    exact ⟨n, hlist, hlist ▸ habsent, hbefore⟩
  · rw [hnames, mem_filter, mem_eraseDups]
    simp [and_assoc]

end Program
end PugTemplate
