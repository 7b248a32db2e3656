import PugTemplate.Proofs.Program.Segments
/-!
# Statements made from writes

Writes are merged into the last statement only. A statement of its own therefore cuts a list of
writes in two: what stands before it and what stands behind it are merged without regard to each
other.
-/

namespace PugTemplate

open List
namespace Program

/-- The code of a write that is a statement of its own. -/
def Write.line? : Write → Option String
  | .text _ => none
  | .expression _ => none
  | .choice subject => some (choiceCode subject)
  | .branch value => some (branchCode value)
  | .statement code => some code

namespace Segmented

variable {pre post : List Write} {w : Write} {code : String}

theorem add_of_line? (out : Segmented) (h : w.line? = some code) : out.add w = .raw code :: out := by
  cases w with
  | text t | expression e => exact absurd h (by simp [Write.line?])
  | choice subject | branch value | statement c =>
    simp only [Write.line?, Option.some.injEq] at h; subst h; rfl

theorem add_append_raw (out rest : Segmented) (code : String) (w : Write) :
    Segmented.add (out ++ .raw code :: rest) w = out.add w ++ .raw code :: rest := by
  cases hw : w.line? with
  | some c => rw [add_of_line? _ hw, add_of_line? _ hw]; rfl
  | none =>
    -- texts and expressions look at the last statement, and at no other
    cases w with
    | choice subject | branch value | statement c => exact absurd hw (by simp [Write.line?])
    | text t =>
      cases out with
      | nil => rfl
      | cons top below =>
        cases top with
        | raw c => rfl
        | write segments =>
          simp only [add, addText, cons_append]
          split <;> rfl
    | expression e =>
      cases out with
      | nil => rfl
      | cons top below =>
        cases top with
        | raw c => rfl
        | write segments =>
          simp only [add, addExpression, cons_append]
          split <;> rfl

theorem foldl_add_append_raw (ws : List Write) (out rest : Segmented) (code : String) :
    ws.foldl add (out ++ .raw code :: rest) = ws.foldl add out ++ .raw code :: rest := by
  induction ws generalizing out with
  | nil => rfl
  | cons w ws ih =>
    simp only [foldl_cons]
    rw [add_append_raw, ih]

theorem ofWrites_cut (h : w.line? = some code) :
    ofWrites (pre ++ w :: post) = ofWrites post ++ .raw code :: ofWrites pre := by
  unfold ofWrites
  rw [foldl_append, foldl_cons, add_of_line? _ h]
  exact foldl_add_append_raw post [] (pre.foldl add []) code

theorem foldl_add_texts (texts : List String) (before : String) :
    (texts.map Write.text).foldl add [.write [.text before]] =
      [.write [.text (before ++ String.join texts)]] := by
  induction texts generalizing before with
  | nil => simp
  | cons t texts ih =>
    have ha : add [.write [.text before]] (.text t) = [.write [.text (before ++ t)]] := rfl
    simp only [map_cons, foldl_cons, ha]
    rw [ih, String.join_cons, String.append_assoc]

theorem ofWrites_texts (texts : List String) : ofWrites (texts.map Write.text) =
      if texts = [] then [] else [.write [.text (String.join texts)]] := by
  cases texts with
  | nil => rfl
  | cons t texts =>
    have ha : add [] (.text t) = [.write [.text t]] := rfl
    rw [if_neg (by simp)]
    unfold ofWrites
    simp only [map_cons, foldl_cons, ha]
    rw [foldl_add_texts, String.join_cons]

end Segmented

namespace Output

variable {pre post : List Write} {w : Write} {code : String}

/-- The lines before a statement of its own, its code, and the lines behind it. -/
theorem lines_cut (h : w.line? = some code) : (ofWrites (pre ++ w :: post)).lines =
      (ofWrites pre).lines ++ code :: (ofWrites post).lines := by
  rw [lines_eq, lines_eq, lines_eq, Segmented.ofWrites_cut h]
  simp [Segmented.lines, Statement.code]

theorem lines_cons (h : w.line? = some code) :
    (ofWrites (w :: post)).lines = code :: (ofWrites post).lines :=
  show (ofWrites ([] ++ w :: post)).lines = (ofWrites []).lines ++ _ from lines_cut h

end Output
end Program
end PugTemplate
