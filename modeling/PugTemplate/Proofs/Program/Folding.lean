import PugTemplate.Proofs.Program.Attributes
/-!
# Constant attributes

A constant becomes markup or a literal when the program is written. Nothing may come of that but what
the helpers give when the program runs. They stop where an object has no string, and a literal cannot
give an object a key `__proto__`; everything else comes out the same.
-/

namespace PugTemplate

open List Markup
namespace Program

open Script (Datum Run Units)
open Script.Units (ofText)

/-! ## Constants in place of calls -/

/-- **A constant in place of a call.** It gives what the call gives if it is exact, and only then; and
where it stops, so does the call. -/
structure FoldsTo {β : Type} (exact : Bool) (folded call : Run (List β)) : Prop where
  same : exact = true → call = folded
  stops : ∀ e, folded = .error e → call = .error e
  /-- Both results are of one length, so that results behind each other can be told apart. -/
  length : ∀ x y, folded = .ok x → call = .ok y → x.length = y.length
  sharp : ∀ x, folded = .ok x → call = .ok x → exact = true

namespace FoldsTo

variable {β : Type}

theorem refl (x : Run (List β)) : FoldsTo true x x := by
  refine ⟨fun _ => rfl, fun _ h => h, fun a b ha hb => ?_, fun _ _ _ => rfl⟩
  rw [Except.ok.inj (ha.symm.trans hb)]

theorem of_ite {exact : Bool} {x : List β} {call : Run (List β)}
    (h : call = if exact then .ok x else .error .noPrimitive) : FoldsTo exact (.ok x) call := by
  subst h
  cases exact with
  | true => exact refl _
  | false =>
    refine ⟨by rintro ⟨⟩, by rintro _ ⟨⟩, ?_, ?_⟩
    · rintro a b - ⟨⟩
    · rintro a - ⟨⟩

theorem literal {φ : Type} (key : Units) {v : Value} {found : Bool} {value : Run (LiveValue φ)}
    (hv : value = if found then .ok (.datum (Datum.of v)) else .error .noPrimitive) :
    FoldsTo (found && v.isPlain) (.ok [(key, .datum (Datum.literal v))])
      ((fun w => [(key, w)]) <$> value) := by
  subst hv
  cases found with
  | false => exact of_ite rfl
  | true =>
    refine ⟨fun hp => ?_, by rintro _ ⟨⟩, ?_, ?_⟩
    · rw [(Datum.literal_eq_of_iff v).mpr hp]
      rfl
    · rintro x y ⟨⟩ ⟨⟩
      rfl
    · rintro x ⟨⟩ hx
      have hs : Datum.of v = Datum.literal v := by
        simpa using Except.ok.inj hx
      exact (Datum.literal_eq_of_iff v).mp hs.symm

theorem cons {exact exacts : Bool} {x y : Run (List β)} {xs ys : List (Run (List β))}
    (h : FoldsTo exact x y) (hs : FoldsTo exacts (inTurn xs) (inTurn ys)) :
    FoldsTo (exact && exacts) (inTurn (x :: xs)) (inTurn (y :: ys)) := by
  refine ⟨fun hex => ?_, fun e he => ?_, fun r r' hr hr' => ?_, fun r hr hr' => ?_⟩
  · obtain ⟨hf, hre⟩ := Bool.and_eq_true_iff.mp hex
    rw [inTurn, inTurn, h.same hf, hs.same hre]
  · -- all stops are alike, so it does not matter which of the two runs stops first
    rw [inTurn] at he ⊢
    cases x with
    | error e =>
      rw [h.stops _ rfl]
      rfl
    | ok first =>
      have hre : inTurn ys = .error .noPrimitive := by
        refine hs.stops _ ?_
        cases hxs : inTurn xs with
        | error e => rfl
        | ok rest =>
          rw [hxs] at he
          cases he
      rw [hre]
      cases y with
      | error e => rfl
      | ok first' => rfl
  · obtain ⟨first, rest, hx, hxs, rfl⟩ := inTurn_cons_eq_ok hr
    obtain ⟨first', rest', hy, hys, rfl⟩ := inTurn_cons_eq_ok hr'
    rw [length_append, length_append, h.length _ _ hx hy, hs.length _ _ hxs hys]
  · obtain ⟨first, rest, hx, hxs, rfl⟩ := inTurn_cons_eq_ok hr
    obtain ⟨first', rest', hy, hys, heq⟩ := inTurn_cons_eq_ok hr'
    obtain ⟨rfl, rfl⟩ := append_inj heq (h.length _ _ hx hy)
    rw [h.sharp _ hx hy, hs.sharp _ hxs hys]
    rfl

theorem all {α : Type} {exact : α → Bool} {f g : α → Run (List β)} (as : List α)
    (h : ∀ a ∈ as, FoldsTo (exact a) (f a) (g a)) :
    FoldsTo (as.all exact) (inTurn (as.map f)) (inTurn (as.map g)) := by
  induction as with
  | nil => exact refl _
  | cons a as ih =>
    obtain ⟨ha, has⟩ := forall_mem_cons.mp h
    exact ha.cons (ih has)

theorem map {γ : Type} {exact : Bool} {folded call : Run (List β)} (h : FoldsTo exact folded call)
    {wrap : List β → γ} (hw : Function.Injective wrap) :
    (∀ e, wrap <$> folded = .error e → wrap <$> call = .error e) ∧
      ∀ r, wrap <$> folded = .ok r → (wrap <$> call = .ok r ↔ exact) := by
  cases hf : folded with
  | error e =>
    rw [h.stops e hf]
    exact ⟨fun _ he => he, by rintro r ⟨⟩⟩
  | ok x =>
    refine ⟨by rintro e ⟨⟩, ?_⟩
    rintro r ⟨⟩
    constructor
    · intro hc
      cases hy : call with
      | error e =>
        rw [hy] at hc
        cases hc
      | ok y =>
        rw [hy] at hc
        have hx : y = x := hw (Except.ok.inj hc)
        exact h.sharp x hf (hx ▸ hy)
    · intro hex
      rw [h.same hex, hf]
      rfl

end FoldsTo

/-! ### One attribute -/

namespace AttributeSetting

/-- The setting in which nothing is constant. -/
def unfolded (env : AttributeSetting) : AttributeSetting := { env with evaluator := .foldNothing }

/-- **The attribute folds exactly**: it is not folded, or nothing is lost when it is. A style needs
the strings of what it declares. In an object, a value that is escaped needs its own string, and
whatever is written as a literal has to be plain. -/
def foldsExactly (env : AttributeSetting) (a : Attribute) : Bool :=
  match env.evaluator a.value.source with
  | none => true
  | some v =>
    if a.name == "style" then v.members.all fun e => e.2.converts
    else
      match env.form with
      | .html => true
      | .object =>
        (!a.escape || v.converts) && (if a.escape then Markup.escapeValue v else v).isPlain

section Attribute

variable {φ : Type} {scope : Scope φ} (env : AttributeSetting) {a : Attribute} {v : Value}

/-- The term of an attribute in the code without constants. -/
def plainTerm (a : Attribute) : Term :=
  if a.name == "style" then .style a.value.source else .source a.value.source

theorem foldTerm_of_none (h : env.evaluator a.value.source = none) :
    env.foldTerm a = .dynamic (plainTerm a) := by
  unfold foldTerm
  rw [h]
  rfl

theorem foldTerm_of_some (h : env.evaluator a.value.source = some v) :
    env.foldTerm a = .constant (if a.name == "style" then .string (style v) else v) := by
  unfold foldTerm
  rw [h]

theorem run_plainTerm (ht : scope.Truthful env.evaluator)
    (h : env.evaluator a.value.source = some v) :
    (plainTerm a).run scope =
      if a.name == "style" then
        if v.members.all fun e => e.2.converts then .ok (.datum (.string (ofText (style v))))
        else .error .noPrimitive
      else .ok (.datum (Datum.of v)) := by
  obtain ⟨hd, hv⟩ := ht _ _ h
  unfold plainTerm
  by_cases hs : (a.name == "style")
  · rw [if_pos hs, if_pos hs]
    show (scope.value a.value.source >>= scope.callStyle) = _
    rw [hv]
    show (fun text => LiveValue.datum (.string text)) <$> Script.Runtime.style (Datum.of v) = _
    rw [Script.Runtime.style_of (Datum.isListed_of_isData _ hd)]
    cases v.members.all fun e => e.2.converts <;> rfl
  · rw [if_neg hs, if_neg hs]
    exact hv

theorem foldsTo_htmlPart (ht : scope.Truthful env.evaluator) (hfo : env.form = .html)
    (a : Attribute) :
    FoldsTo (env.foldsExactly a) ((env.htmlPart a).run scope env.terse)
      ((env.unfolded.htmlPart a).run scope env.terse) := by
  let call (v : LiveValue φ) := scope.callAttr (ofText (reread a.name)) v a.escape env.terse
  have hc (v : Value) (hv : v.isData) : call (.datum (Datum.of v)) =
        .ok (ofText (reread (attributeText a.name v a.escape env.terse))) := by
    show Script.Runtime.attr (ofText (reread a.name)) (Datum.of v) a.escape env.terse = _
    rw [reread_eq, reread_eq]
    exact Script.Runtime.attr_of (Datum.isListed_of_isData v hv) a.name a.escape env.terse
  show FoldsTo _ _ ((plainTerm a).run scope >>= call)
  unfold foldsExactly htmlPart
  cases hf : env.evaluator a.value.source with
  | none =>
    rw [env.foldTerm_of_none hf]
    exact .refl _
  | some v =>
    rw [env.foldTerm_of_some hf, env.run_plainTerm ht hf, hfo]
    dsimp only
    by_cases hs : (a.name == "style")
    · rw [if_pos hs, if_pos hs, if_pos hs]
      refine .of_ite ?_
      cases v.members.all fun e => e.2.converts with
      | false => rfl
      | true => exact hc (.string (style v)) rfl
    · rw [if_neg hs, if_neg hs, if_neg hs]
      exact .of_ite (hc v (ht _ _ hf).1)

theorem foldsTo_entryPart (ht : scope.Truthful env.evaluator) (hfor : env.form = .object)
    (a : Attribute) :
    FoldsTo (env.foldsExactly a) ((env.entryPart a).run scope)
      ((env.unfolded.entryPart a).run scope) := by
  let call (v : LiveValue φ) := if a.escape then scope.callEscape v else pure v
  let written (v : Value) : Value := if a.escape then escapeValue v else v
  have hca (v : Value) (hv : v.isData) : call (.datum (Datum.of v)) =
        if !a.escape || v.converts then .ok (.datum (Datum.of (written v)))
        else .error .noPrimitive := by
    simp only [call, written]
    cases a.escape with
    | false => rfl
    | true =>
      show LiveValue.datum <$> Script.Runtime.escape (Datum.of v) = _
      rw [Script.Runtime.escape_of (Datum.isListed_of_isData v hv)]
      cases v.converts <;> rfl
  show FoldsTo _ _ ((fun v => [(ofText (reread a.name), v)]) <$> ((plainTerm a).run scope >>= call))
  unfold foldsExactly entryPart EntryPart.run
  cases hf : env.evaluator a.value.source with
  | none =>
    rw [env.foldTerm_of_none hf]
    exact .refl _
  | some v =>
    rw [env.foldTerm_of_some hf, env.run_plainTerm ht hf, hfor]
    dsimp only
    by_cases hs : (a.name == "style")
    · rw [if_pos hs, if_pos hs, if_pos hs]
      -- the text of a style is a string, which is always plain
      let text : Value := .string (style v)
      have hp : (written text).isPlain := by
        simp only [written]
        cases a.escape <;> rfl
      have hva : ((if v.members.all fun e => e.2.converts then
            (.ok (.datum (Datum.of text)) : Run (LiveValue φ)) else .error .noPrimitive) >>= call) =
          if v.members.all fun e => e.2.converts then .ok (.datum (Datum.of (written text)))
          else .error .noPrimitive := by
        cases v.members.all fun e => e.2.converts with
        | false => rfl
        | true =>
          have hc : text.converts := rfl
          refine (hca text rfl).trans ?_
          rw [hc, Bool.or_true]
      have hfo := FoldsTo.literal (ofText (reread a.name)) hva
      rwa [hp, Bool.and_true] at hfo
    · rw [if_neg hs, if_neg hs, if_neg hs]
      exact .literal _ (hca v (ht _ _ hf).1)

end Attribute

/-! ### Lists of attributes -/

theorem run_unfolded_iff {φ : Type} {scope : Scope φ} (env : AttributeSetting)
    (ht : scope.Truthful env.evaluator) (attributes : List Attribute) :
    (∀ e, (env.attributeCode attributes).run scope env.terse = .error e →
        (env.unfolded.attributeCode attributes).run scope env.terse = .error e) ∧
      ∀ r, (env.attributeCode attributes).run scope env.terse = .ok r →
        ((env.unfolded.attributeCode attributes).run scope env.terse = .ok r ↔
          ∀ a ∈ attributes, env.foldsExactly a) := by
  have hu : env.unfolded.form = env.form := rfl
  unfold attributeCode
  rw [hu, ← all_eq_true]
  cases hf : env.form with
  | html =>
    simp only [AttributeCode.run, run_joinParts, map_map]
    exact (FoldsTo.all attributes fun a _ => env.foldsTo_htmlPart ht hf a).map
      fun _ _ h => AttributeResult.text.inj h
  | object =>
    simp only [AttributeCode.run, map_map]
    exact (FoldsTo.all attributes fun a _ => env.foldsTo_entryPart ht hf a).map
      fun _ _ h => AttributeResult.object.inj h

end AttributeSetting

/-- **Folding attributes is transparent**, except where a string is missing or a literal is not plain.
The code of attributes other than classes is written as the parts that are run here, with constants
and without. Where the code with constants stops, so does the other. Where it gives a result, the
other gives the same result exactly if every attribute folds exactly. In either code, what a list of
attributes gives is what its pieces give, one behind the other: joining literals alters nothing,
leaves nothing out and keeps the order. -/
theorem folding_transparent_iff {φ : Type} (scope : Scope φ) (env : AttributeSetting)
    (htrue : scope.Truthful env.evaluator) (attributes : List Attribute)
    (hothers : ∀ a ∈ attributes, a.name ≠ "class") :
    let run (env : AttributeSetting) (attributes : List Attribute) :=
      (env.attributeCode attributes).run scope env.terse
    (env.code attributes).code = (env.attributeCode attributes).print env ∧
      (env.unfolded.code attributes).code =
        (env.unfolded.attributeCode attributes).print env.unfolded ∧
      (∀ e, run env attributes = .error e → run env.unfolded attributes = .error e) ∧
      (∀ r, run env attributes = .ok r →
        (run env.unfolded attributes = .ok r ↔ ∀ a ∈ attributes, env.foldsExactly a = true)) ∧
      ∀ front back, attributes = front ++ back →
        ∀ any ∈ [env, env.unfolded], run any attributes = (do
          let first ← run any front
          let rest ← run any back
          pure (first.append rest)) := by
  intro run
  obtain ⟨hstops, hresult⟩ := env.run_unfolded_iff htrue attributes
  refine ⟨env.code_others hothers, env.unfolded.code_others hothers, hstops, hresult, ?_⟩
  rintro front back rfl any -
  exact run_attributeCode_append scope any.terse any front back

/-- The scope of an evaluator: sources that it does not know have a value that it cannot have. -/
def Scope.ofEvaluator (evaluator : Evaluator) : Scope Unit :=
  { value := fun source =>
      .ok (match evaluator source with
        | some c => .datum (Datum.of c)
        | none => .foreign ())
    attr := fun key _ _ _ => .ok (ofText " " ++ key)
    style := fun _ => .ok []
    escape := fun v => .ok (.foreign v) }

theorem Scope.truthful_ofEvaluator {evaluator : Evaluator}
    (hd : ∀ source c, evaluator source = some c → c.isData) :
    (ofEvaluator evaluator).Truthful evaluator := by
  intro source c hc
  refine ⟨hd source c hc, ?_⟩
  simp only [ofEvaluator, hc]

/-- Two constants before an attribute that is not constant, and one behind it. -/
theorem folding_transparent_iff_link :
    let evaluator : Evaluator := fun source =>
      if source == "'<b>'" then some (.string "<b>")
      else if source == "[7]" then some (.array [.int 7]) else none
    let env : AttributeSetting :=
      { evaluator, terse := false, form := .html, reach := fun h => "rt." ++ h.name }
    let run (env : AttributeSetting) (attributes : List Attribute) :=
      (env.attributeCode attributes).run (Scope.ofEvaluator evaluator) env.terse
    let attributes : List Attribute :=
      [⟨"title", .expression "'<b>'", true, {}⟩, ⟨"style", .expression "[7]", false, {}⟩,
        ⟨"href", .expression "url", true, {}⟩, ⟨"id", .expression "[7]", true, {}⟩]
    (env.code attributes).code =
        "\" title=\\\"&lt;b&gt;\\\" style=\\\"0:7;\\\"\"+rt.attr(\"href\", url, true, false)+" ++
          "\" id=\\\"[7]\\\"\"" ∧
      run env.unfolded attributes =
        .ok (.text (ofText " title=\"&lt;b&gt;\" style=\"0:7;\" href id=\"[7]\"")) := by
  intro evaluator env run attributes
  have hdata : ∀ source c, evaluator source = some c → c.isData = true := by
    intro source c hc
    simp only [evaluator] at hc
    split at hc
    · cases hc
      rfl
    · split at hc
      · cases hc
        decide +kernel
      · cases hc
  have htrue := Scope.truthful_ofEvaluator hdata
  have hparts : joinParts (attributes.map env.htmlPart) =
      [.literal " title=\"&lt;b&gt;\" style=\"0:7;\"", .call "href" (.source "url") true,
        .literal " id=\"[7]\""] := by decide +kernel
  have hurl : evaluator "url" = none := by decide +kernel
  have hrun : run env attributes =
      .ok (.text (ofText " title=\"&lt;b&gt;\" style=\"0:7;\" href id=\"[7]\"")) := by
    show AttributeResult.text <$> inTurn ((joinParts (attributes.map env.htmlPart)).map _) = _
    rw [hparts]
    simp only [List.map_cons, List.map_nil, inTurn, HtmlPart.run, Term.run, reread_eq,
      Scope.ofEvaluator, hurl]
    show Except.ok (AttributeResult.text (_ ++ (ofText " " ++ ofText "href" ++ (_ ++ [])))) = _
    simp only [List.append_nil, ← Script.Units.ofText_append]
    rfl
  have htransparent := folding_transparent_iff _ env htrue attributes (by decide)
  refine ⟨by decide +kernel, (htransparent.2.2.2.1 _ hrun).mpr (by decide +kernel)⟩

/-- A style that has no string when the program runs is written as if it had one. -/
theorem folding_hidden_method :
    let v : Value := .object [("a", .object [("toString", .int 1)])]
    let evaluator : Evaluator := fun source =>
      if source == "\x7ba: \x7btoString: 1\x7d\x7d" then some v else none
    let env : AttributeSetting :=
      { evaluator, terse := false, form := .html, reach := fun h => "rt." ++ h.name }
    let scope := Scope.ofEvaluator evaluator
    let attributes : List Attribute :=
      [⟨"style", .expression "\x7ba: \x7btoString: 1\x7d\x7d", true, {}⟩]
    scope.Truthful evaluator ∧
      (env.code attributes).code = "\" style=\\\"a:[object Object];\\\"\"" ∧
      (env.unfolded.code attributes).code =
        "rt.attr(\"style\", rt.style(\x7ba: \x7btoString: 1\x7d\x7d), true, false)" ∧
      (env.attributeCode attributes).run scope env.terse =
        .ok (.text (ofText " style=\"a:[object Object];\"")) ∧
      (env.unfolded.attributeCode attributes).run scope env.terse = .error .noPrimitive := by
  intro v evaluator env scope attributes
  have hdata : ∀ source c, evaluator source = some c → c.isData = true := by
    intro source c hc
    simp only [evaluator] at hc
    split at hc
    · cases hc
      decide +kernel
    · cases hc
  have htrue : scope.Truthful evaluator := Scope.truthful_ofEvaluator hdata
  have hparts : joinParts (attributes.map env.htmlPart) =
      [.literal " style=\"a:[object Object];\""] := by decide +kernel
  refine ⟨htrue, by decide +kernel, by decide +kernel, ?_, ?_⟩
  · show AttributeResult.text <$> inTurn ((joinParts (attributes.map env.htmlPart)).map _) = _
    rw [hparts]
    simp only [List.map_cons, List.map_nil, inTurn, HtmlPart.run, reread_eq]
    show Except.ok (AttributeResult.text (_ ++ [])) = _
    rw [List.append_nil]
  · let a : Attribute := ⟨"style", .expression "\x7ba: \x7btoString: 1\x7d\x7d", true, {}⟩
    have hfold : env.evaluator a.value.source = some v := rfl
    have hterm : (AttributeSetting.plainTerm a).run scope = .error .noPrimitive := by
      rw [env.run_plainTerm htrue hfold, if_pos (by decide), if_neg (by decide +kernel)]
    show AttributeResult.text <$>
      inTurn [HtmlPart.run scope false (.call "style" (AttributeSetting.plainTerm a) true)] = _
    rw [inTurn, HtmlPart.run, hterm]
    rfl

end Program
end PugTemplate
