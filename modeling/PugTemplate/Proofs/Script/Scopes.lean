import PugTemplate.Proofs.Script.References
import PugTemplate.Proofs.Script.Snippets
/-!
# Undeclared names and free references

`freeVariables` gives every declaration to the whole of the function around it and does not look at
the heads of functions. So it returns the names that are reported at some occurrence. None of them is
declared there, and all free names are among them exactly if each is free at an occurrence that is
reported.
-/

namespace PugTemplate

open List
open Bool hiding not_or
namespace Script
namespace Syntax

/-! ## Declared names -/

variable {kind name : String} {parts before : List Syntax} {part : Syntax} {s : Surroundings}

theorem allDeclaredNames_congr
    (h : ∀ part ∈ parts, part.declaredNames = part.outerNodes.flatMap declaredBy) :
    allDeclaredNames parts = somewhereDeclared parts := by
  induction parts with
  | nil => rfl
  | cons part parts ih =>
    obtain ⟨hpart, hparts⟩ := forall_mem_cons.mp h
    rw [allDeclaredNames, somewhereDeclared, allOuterNodes, flatMap_append, ih hparts, hpart]
    split <;> rfl

theorem declaredBy_of_isNamedDeclaration {info : NodeInfo} (children : List Syntax)
    (h : isNamedDeclaration info.kind) :
    declaredBy (.node info children) = partBoundNames "name" children ∧
      (isFunction info.kind || info.kind == "class_declaration") = true := by
  simp only [isNamedDeclaration, or_eq_true, beq_iff_eq] at h
  rcases h with (h | h) | h <;> simp [declaredBy, Syntax.kind, Syntax.info, Syntax.children, isFunction, h]

theorem declaredBy_of_not_isNamedDeclaration {info : NodeInfo} {children : List Syntax}
    (h : ¬isNamedDeclaration info.kind) :
    declaredBy (.node info children) =
      if isFunction info.kind then [] else ownNames info.kind children := by
  simp only [isNamedDeclaration, or_eq_true, beq_iff_eq, not_or] at h
  unfold declaredBy ownNames isFunction Syntax.kind Syntax.info Syntax.children
  simp only
  split <;> simp_all

theorem declaredNames_eq (t : Syntax) : t.declaredNames = t.outerNodes.flatMap declaredBy := by
  induction t using parts_induction with
  | node info children ih =>
    rw [declaredNames, outerNodes, flatMap_cons]
    split
    · next hnamed =>
      obtain ⟨hnames, hinner⟩ := declaredBy_of_isNamedDeclaration children hnamed
      rw [hnames, if_pos hinner, flatMap_nil, append_nil]
    · next hnamed =>
      rw [declaredBy_of_not_isNamedDeclaration hnamed]
      split
      · next hfunction => rw [if_pos (by simp [hfunction]), flatMap_nil, append_nil]
      · next hfunction =>
        have hclass : info.kind ≠ "class_declaration" := by
          intro hkind
          simp [hkind, isNamedDeclaration] at hnamed
        rw [if_neg (by simp [hfunction, hclass]), allDeclaredNames_congr ih]
        rfl

theorem allDeclaredNames_eq (parts : List Syntax) : allDeclaredNames parts = somewhereDeclared parts :=
  allDeclaredNames_congr fun part _ => part.declaredNames_eq

theorem functionNames_eq (kind : String) (parts : List Syntax) :
    functionNames kind parts = somewhereNames kind parts := by
  simp only [functionNames, somewhereNames, allDeclaredNames_eq]

/-! ## Reported names -/

/-- The reported names of occurrences, in the order of the text. -/
def reported (os : List Occurrence) : List String := (os.filter Occurrence.isReported).map (·.name)

theorem reported_singleton (o : Occurrence) :
    reported [o] = if o.isReported then [o.name] else [] := by
  unfold reported
  cases h : o.isReported <;> simp [h]

@[simp] theorem reported_append (os ps : List Occurrence) :
    reported (os ++ ps) = reported os ++ reported ps := by
  simp [reported]

theorem isLookedAt_ofPart (h : s.isLookedAt = false) (kind : String) (parts before : List Syntax)
    (part : Syntax) : (ofPart s kind parts before part).isLookedAt = false := by
  unfold ofPart functionPart
  split
  · split
    · exact h
    · split <;> rfl
  · exact h

theorem reported_eq_nil_of_all {envs : List Syntax → Syntax → Surroundings} (before : List Syntax)
    (h : ∀ part ∈ parts, ∀ s, s.isLookedAt = false → reported (part.occurrences s) = [])
    (henvs : ∀ more, ∀ part ∈ parts, (envs (before ++ more) part).isLookedAt = false) :
    reported (allOccurrences envs before parts) = [] := by
  induction parts generalizing before with
  | nil => rfl
  | cons part parts ih =>
    obtain ⟨hpart, hparts⟩ := forall_mem_cons.mp h
    have hfirst := henvs [] part mem_cons_self
    rw [append_nil] at hfirst
    rw [allOccurrences, reported_append, hpart _ hfirst, nil_append]
    refine ih (before ++ [part]) hparts fun more other hother => ?_
    rw [append_assoc]
    exact henvs _ other (mem_cons_of_mem part hother)

theorem reported_eq_nil (t : Syntax) (h : s.isLookedAt = false) : reported (t.occurrences s) = [] := by
  induction t using parts_induction generalizing s with
  | node info children ih =>
    have hname : reported (occurrence? s info).toList = [] := by
      unfold occurrence?
      split <;> simp [reported, Occurrence.isReported, h]
    rw [occurrences, reported_append, hname, nil_append]
    split
    · rfl
    · exact reported_eq_nil_of_all [] (fun part hpart s hs => ih part hpart hs)
        fun _ part _ => isLookedAt_ofPart h _ _ _ _

/-- The scopes of a walk are the functions around a place. -/
structure Reflects (s : Surroundings) (scopes : List (List String)) : Prop where
  isLookedAt : s.isLookedAt = true
  mem_somewhere : ∀ name, name ∈ s.somewhere ↔ ∃ scope ∈ scopes, name ∈ scope

variable {scopes : List (List String)} {found : List String}

theorem noteUse_eq (h : Reflects s scopes) (name : String) :
    noteUse scopes found name =
      (reported [{ s with name := name }]).foldl (noteUse []) found := by
  have hdeclared : scopes.any (·.contains name) = s.somewhere.contains name := by
    rw [Bool.eq_iff_iff, contains_iff_mem, h.mem_somewhere]
    simp
  have hreported : Occurrence.isReported { s with name := name } = !s.somewhere.contains name := by
    simp [Occurrence.isReported, h.isLookedAt]
  rw [noteUse, hdeclared, reported_singleton, hreported]
  cases s.somewhere.contains name with
  | true => rfl
  | false => simp [noteUse]

theorem allFreeNames_eq {envs : List Syntax → Syntax → Surroundings}
    (h : ∀ part ∈ parts, ∀ s found, Reflects s scopes →
      part.freeNames scopes found = (reported (part.occurrences s)).foldl (noteUse []) found)
    (henvs : ∀ before, ∀ part ∈ parts, Reflects (envs before part) scopes)
    (before : List Syntax) (found : List String) :
    allFreeNames scopes found parts =
      (reported (allOccurrences envs before parts)).foldl (noteUse []) found := by
  induction parts generalizing before found with
  | nil => rfl
  | cons part parts ih =>
    obtain ⟨hpart, hparts⟩ := forall_mem_cons.mp h
    rw [allFreeNames, allOccurrences, reported_append, foldl_append,
      hpart _ found (henvs before part mem_cons_self)]
    exact ih hparts (fun before other hother => henvs before other (mem_cons_of_mem part hother)) _ _

theorem partFreeNames_eq {s : Surroundings} {kind : String} {all : List Syntax}
    (h : ∀ part ∈ parts, ∀ s found, Reflects s scopes →
      part.freeNames scopes found = (reported (part.occurrences s)).foldl (noteUse []) found)
    (hbody : ∀ before part, isPart "body" before part →
      Reflects (functionPart s kind all before part) scopes)
    (before : List Syntax) (hbefore : before.any (isField "body") = false) (found : List String) :
    partFreeNames "body" scopes found parts =
      (reported (allOccurrences (functionPart s kind all) before parts)).foldl (noteUse []) found := by
  have hunseen {before : List Syntax} {part : Syntax} (hpart : isPart "body" before part = false) :
      (functionPart s kind all before part).isLookedAt = false := by
    unfold functionPart
    rw [if_neg (by simp [hpart])]
    split <;> rfl
  induction parts generalizing before with
  | nil => rfl
  | cons part parts ih =>
    obtain ⟨hpart, hparts⟩ := forall_mem_cons.mp h
    rw [partFreeNames, allOccurrences, reported_append, foldl_append]
    cases hfield : part.isField "body" with
    | true =>
      -- the parts behind the body are not looked at
      have hrest : reported (allOccurrences (functionPart s kind all) (before ++ [part]) parts) = [] := by
        refine reported_eq_nil_of_all _ (fun part _ s hs => reported_eq_nil part hs) ?_
        intro more other _
        exact hunseen (by simp [isPart, hfield])
      rw [if_pos rfl, hpart _ found (hbody before part (by simp [isPart, hfield, hbefore])), hrest]
      rfl
    | false =>
      rw [if_neg (by simp), reported_eq_nil part (hunseen (by simp [isPart, hfield]))]
      exact ih hparts (before ++ [part]) (by simp [hbefore, hfield])

theorem Reflects.ofPart (h : Reflects s scopes) (hkind : isFunction kind = false)
    (parts before : List Syntax) (part : Syntax) :
    Reflects (ofPart s kind parts before part) scopes := by
  unfold Syntax.ofPart
  rw [if_neg (by simp [hkind])]
  exact ⟨h.isLookedAt, h.mem_somewhere⟩

theorem Reflects.body (h : Reflects s scopes) (hbody : isPart "body" before part) :
    Reflects (functionPart s kind parts before part) (functionNames kind parts :: scopes) := by
  unfold functionPart
  rw [if_pos hbody]
  refine ⟨h.isLookedAt, fun name => ?_⟩
  rw [functionNames_eq]
  simp [h.mem_somewhere]

/-- **The walk through a tree notes its reported names**, one after the other. -/
theorem freeNames_eq (t : Syntax) (h : Reflects s scopes) (found : List String) :
    t.freeNames scopes found = (reported (t.occurrences s)).foldl (noteUse []) found := by
  induction t using parts_induction generalizing s scopes found with
  | node info children ih =>
    rw [freeNames, occurrences]
    split
    · next hfunction =>
      have hname : isName info.kind = false ∧ occurrence? s info = none := by
        simp only [isFunction, or_eq_true, beq_iff_eq] at hfunction
        rcases hfunction with (((((hk | hk) | hk) | hk) | hk) | hk) | hk <;>
          simp [isName, occurrence?, hk]
      rw [if_neg (by simp [hname.1]), hname.2, show ofPart s info.kind children =
        functionPart s info.kind children from funext₂ fun _ _ => if_pos hfunction]
      exact partFreeNames_eq (fun part hpart s found hs => ih part hpart hs found)
        (fun before part hbody => h.body hbody) [] rfl found
    · next hfunction =>
      split
      · next hname =>
        rw [append_nil, noteUse_eq h]
        simp only [isName, or_eq_true, beq_iff_eq] at hname
        rcases hname with hk | hk
        · simp [occurrence?, hk]
        · simp [occurrence?, hk, reported_singleton, Occurrence.isReported]
      · next hname =>
        have hunseen : reported (occurrence? s info).toList = [] := by
          simp only [isName, or_eq_true, beq_iff_eq, not_or] at hname
          unfold occurrence?
          split
          · next hk => exact absurd hk hname.1
          · next hk => exact absurd hk hname.2
          · simp [reported, Occurrence.isReported]
          · rfl
        rw [reported_append, hunseen, nil_append]
        exact allFreeNames_eq (fun part hpart s found hs => ih part hpart hs found)
          (fun before part _ => h.ofPart (eq_false_of_ne_true hfunction) _ _ _) [] found

end Syntax

theorem noteUse_nil (found : List String) (name : String) :
    Syntax.noteUse [] found name = if name ∈ found then found else found ++ [name] := by
  simp [Syntax.noteUse]

theorem foldl_noteUse (found uses : List String) :
    uses.foldl (Syntax.noteUse []) found =
      found ++ (uses.filter fun name => !found.contains name).eraseDups := by
  induction uses generalizing found with
  | nil => simp
  | cons use rest ih =>
    rw [foldl_cons, noteUse_nil, ih]
    by_cases hfound : use ∈ found
    · rw [if_pos hfound, filter_cons_of_neg (by simpa using hfound)]
    · rw [if_neg hfound, filter_cons_of_pos (by simpa using hfound), eraseDups_cons, append_assoc,
        singleton_append, filter_filter]
      congr 3
      apply filter_congr
      intro name _
      rw [contains_append, Bool.not_or, contains_cons, contains_nil, Bool.or_false, Bool.and_comm]

/-- **The undeclared names of a script** are those that are reported at some occurrence, each once and
in the order of first occurrence. -/
theorem Parser.freeVariables_eq {parse : Parser} {script : String} {root : Syntax}
    (h : parse script = some root) :
    parse.freeVariables script = namesOf Syntax.Occurrence.isReported root.scriptOccurrences := by
  have hreflects : Syntax.Reflects
      { inScope := Syntax.allVarNames root.children
        somewhere := Syntax.somewhereDeclared root.children }
      [Syntax.allDeclaredNames root.children] :=
    ⟨rfl, fun name => by simp [Syntax.allDeclaredNames_eq]⟩
  unfold freeVariables
  rw [h]
  show root.freeNames _ [] = _
  rw [root.freeNames_eq hreflects, foldl_noteUse]
  simp [namesOf, Syntax.reported, Syntax.scriptOccurrences]

namespace Syntax

/-! ## What is declared for a part is declared somewhere -/

variable {kind name : String} {parts before : List Syntax} {part t : Syntax} {s : Surroundings}

theorem outerNodes_subset_all (hpart : part ∈ parts) (hnamed : part.info.isNamed) :
    part.outerNodes ⊆ allOuterNodes parts := by
  induction parts with
  | nil => exact absurd hpart not_mem_nil
  | cons first rest ih =>
    rcases mem_cons.mp hpart with rfl | hrest
    · rw [allOuterNodes, if_pos hnamed]
      exact subset_append_left _ _
    · exact subset_append_of_subset_right _ (ih hrest)

theorem mem_outerNodes_self (t : Syntax) : t ∈ t.outerNodes := by
  cases t
  rw [outerNodes]
  exact mem_cons_self

/-- The names that are declared in a tree, outside of functions and of declared classes. -/
def declared (t : Syntax) : List String := t.outerNodes.flatMap declaredBy

theorem declared_subset_somewhere (hpart : part ∈ parts) (hnamed : part.info.isNamed) :
    part.declared ⊆ somewhereDeclared parts := by
  intro name hname
  obtain ⟨t, ht, hname⟩ := mem_flatMap.mp hname
  exact mem_flatMap.mpr ⟨t, outerNodes_subset_all hpart hnamed ht, hname⟩

theorem declaredBy_subset (t : Syntax) : declaredBy t ⊆ t.declared := by
  intro name hname
  exact mem_flatMap.mpr ⟨t, t.mem_outerNodes_self, hname⟩

theorem declared_eq (t : Syntax) : t.declared = declaredBy t ++
    if isFunction t.kind || t.kind == "class_declaration" then [] else somewhereDeclared t.children := by
  cases t with
  | node info children =>
    rw [declared, outerNodes, flatMap_cons]
    show _ = _ ++ if isFunction info.kind || info.kind == "class_declaration" then [] else _
    split <;> rfl

theorem somewhere_subset_declared
    (hkind : (isFunction t.kind || t.kind == "class_declaration") = false) :
    somewhereDeclared t.children ⊆ t.declared := by
  rw [declared_eq, if_neg (by simp [hkind])]
  exact subset_append_right _ _

theorem declaratorNames_subset (parts : List Syntax) :
    declaratorNames parts ⊆ somewhereDeclared parts := by
  intro name hname
  obtain ⟨t, ht, hname⟩ := mem_flatMap.mp hname
  split at hname
  · next h =>
    simp only [and_eq_true, beq_iff_eq] at h
    refine declared_subset_somewhere ht h.1 (declaredBy_subset t ?_)
    rwa [declaredBy, h.2]
  · exact absurd hname not_mem_nil

theorem lexicalNames_subset (parts : List Syntax) : lexicalNames parts ⊆ somewhereDeclared parts := by
  intro name hname
  obtain ⟨t, ht, hname⟩ := mem_flatMap.mp hname
  split at hname
  · exact absurd hname not_mem_nil
  next hnamed =>
  refine declared_subset_somewhere ht (by simpa using hnamed) ?_
  split at hname
  · next hkind =>
    rw [beq_iff_eq] at hkind
    exact somewhere_subset_declared (by rw [hkind]; rfl) (declaratorNames_subset _ hname)
  · split at hname
    · next hkind =>
      rw [beq_iff_eq] at hkind
      exact declaredBy_subset t (by rwa [declaredBy, hkind])
    · exact absurd hname not_mem_nil

theorem ownVarNames_subset (t : Syntax) : ownVarNames t.kind t.children ⊆ t.declared := by
  intro name hname
  unfold ownVarNames at hname
  split at hname
  · next hkind =>
    exact somewhere_subset_declared (by rw [hkind]; rfl) (declaratorNames_subset _ hname)
  · next hkind => exact declaredBy_subset t (by rwa [declaredBy, hkind])
  · next hkind => exact declaredBy_subset t (by rwa [declaredBy, hkind])
  · next hkind =>
    refine declaredBy_subset t ?_
    rw [declaredBy, hkind]
    split at hname
    · next hvar =>
      rw [if_pos (and_eq_true _ _ ▸ hvar).1]
      exact hname
    · exact absurd hname not_mem_nil
  · exact absurd hname not_mem_nil

theorem allVarNames_subset_of (h : ∀ part ∈ parts, part.varNames ⊆ part.declared) :
    allVarNames parts ⊆ somewhereDeclared parts := by
  induction parts with
  | nil => exact nil_subset _
  | cons part parts ih =>
    obtain ⟨hpart, hparts⟩ := forall_mem_cons.mp h
    rw [allVarNames, append_subset]
    constructor
    · split
      · next hnamed => exact Subset.trans hpart (declared_subset_somewhere mem_cons_self hnamed)
      · exact nil_subset _
    · rw [somewhereDeclared, allOuterNodes, flatMap_append]
      exact subset_append_of_subset_right _ (ih hparts)

theorem varNames_subset (t : Syntax) : t.varNames ⊆ t.declared := by
  induction t using parts_induction with
  | node info children ih =>
    rw [varNames, append_subset]
    refine ⟨ownVarNames_subset (.node info children), ?_⟩
    split
    · exact nil_subset _
    · next hkind =>
      simp only [or_eq_true, not_or] at hkind
      have hinner : (isFunction info.kind || info.kind == "class_declaration") = false := by
        simp [hkind.1.1, hkind.2]
      exact Subset.trans (allVarNames_subset_of ih)
        (somewhere_subset_declared (t := .node info children) hinner)

theorem allVarNames_subset (parts : List Syntax) : allVarNames parts ⊆ somewhereDeclared parts :=
  allVarNames_subset_of fun part _ => part.varNames_subset

theorem part?_append (hbefore : before.any (isField name) = false) (rest : List Syntax) :
    part? name (before ++ rest) = part? name rest := by
  unfold part?
  rw [find?_append, find?_eq_none.mpr]
  · rfl
  · intro t ht hfield
    rw [any_eq_false] at hbefore
    exact hbefore t ht hfield

theorem part?_of_isPart (h : isPart name before part) (rest : List Syntax) :
    part? name (before ++ part :: rest) = some part := by
  simp only [isPart, and_eq_true, not_eq_true'] at h
  rw [part?_append h.2, part?, find?_cons_of_pos h.1]

theorem partBoundNames_eq (name : String) (parts : List Syntax) :
    partBoundNames name parts = ((part? name parts).map boundNames).getD [] := by
  induction parts with
  | nil => rfl
  | cons t ts ih =>
    rw [partBoundNames, part?]
    cases hfield : t.isField name with
    | true => simp [hfield]
    | false =>
      rw [find?_cons_of_neg (by simp [hfield]), if_neg (by simp)]
      exact ih

theorem partBoundNames_of_isPart (h : isPart name before part) (rest : List Syntax) :
    partBoundNames name (before ++ part :: rest) = part.boundNames := by
  rw [partBoundNames_eq, part?_of_isPart h]
  rfl

theorem boundNames_subset_all (hpart : part ∈ parts) (hnamed : part.info.isNamed) :
    part.boundNames ⊆ allBoundNames parts := by
  induction parts with
  | nil => exact absurd hpart not_mem_nil
  | cons first rest ih =>
    rcases mem_cons.mp hpart with rfl | hrest
    · rw [allBoundNames, if_pos hnamed]
      exact subset_append_left _ _
    · exact subset_append_of_subset_right _ (ih hrest)

/-! ## Regular trees -/

/-- A node as the grammar has it: a mark has nothing below it and is no name, neither has a name, and
the body of a function declares nothing by itself. Nothing is declared in a class outside of its
methods, and a class that is an expression has no name. -/
def isRegularNode (t : Syntax) : Bool :=
  (t.info.isNamed || t.children.isEmpty && (occurrence? {} t.info).isNone) &&
  (t.kind != "shorthand_property_identifier_pattern" || t.children.isEmpty) &&
  (!isFunction t.kind || (part? "body" t.children).all fun body => (declaredBy body).isEmpty) &&
  (t.kind != "class_declaration" || (somewhereDeclared t.children).isEmpty) &&
  (t.kind != "class" || (part? "name" t.children).isNone)

/-- All nodes of a tree are regular, and its root declares nothing by itself. -/
def isRegular (root : Syntax) : Bool := root.nodes.all isRegularNode && (declaredBy root).isEmpty

/-- What is declared for a place is declared somewhere in a function around it. -/
structure Sound (s : Surroundings) (t : Syntax) : Prop where
  inScope : s.inScope ⊆ s.somewhere
  declared : t.declared ⊆ s.somewhere
  bound : s.isBinding = true → t.boundNames ⊆ s.somewhere

theorem Sound.scopeNames_subset (h : Sound s t) (hregular : isRegularNode t) :
    scopeNames t.kind t.children ⊆ s.somewhere := by
  simp only [isRegularNode, and_eq_true] at hregular
  have hparts (hkind : (isFunction t.kind || t.kind == "class_declaration") = false) :
      somewhereDeclared t.children ⊆ s.somewhere :=
    Subset.trans (somewhere_subset_declared hkind) h.declared
  have hown : declaredBy t ⊆ s.somewhere := Subset.trans (declaredBy_subset t) h.declared
  unfold scopeNames
  split
  · next hkind => exact Subset.trans (lexicalNames_subset _) (hparts (by rw [hkind]; rfl))
  · next hkind => exact Subset.trans (lexicalNames_subset _) (hparts (by rw [hkind]; rfl))
  · next hkind => exact Subset.trans (lexicalNames_subset _) (hparts (by rw [hkind]; rfl))
  · next hkind =>
    refine Subset.trans (fun name hname => ?_) (hparts (by rw [hkind]; rfl))
    obtain ⟨label, hlabel, hname⟩ := mem_flatMap.mp hname
    obtain ⟨hmem, hnamed⟩ := mem_filter.mp hlabel
    split at hname
    · next hcase =>
      refine declared_subset_somewhere hmem hnamed (somewhere_subset_declared ?_ (lexicalNames_subset _ hname))
      simp only [or_eq_true, beq_iff_eq] at hcase
      rcases hcase with hcase | hcase <;> (rw [hcase]; rfl)
    · exact absurd hname not_mem_nil
  · next hkind => exact Subset.trans (allVarNames_subset _) (hparts (by rw [hkind]; rfl))
  · next hkind =>
    split
    · next heach =>
      rw [declaredBy, hkind] at hown
      simp only [declaresEach, and_eq_true] at heach
      simpa [heach.1] using hown
    · exact nil_subset _
  · next hkind =>
    rw [declaredBy, hkind] at hown
    exact hown
  · next hkind =>
    have hname : part? "name" t.children = none := by simpa [hkind] using hregular.2
    rw [partBoundNames_eq, hname]
    exact nil_subset _
  · next hkind =>
    rw [declaredBy, hkind] at hown
    exact hown
  · exact nil_subset _

theorem boundNames_eq (t : Syntax) : t.boundNames =
    match t.kind with
    | "identifier" => [t.text]
    | "shorthand_property_identifier_pattern" => [t.text]
    | "assignment_pattern" => partBoundNames "left" t.children
    | "object_assignment_pattern" => partBoundNames "left" t.children
    | "pair_pattern" => partBoundNames "value" t.children
    | _ => allBoundNames t.children := by
  cases t
  rw [boundNames]
  rfl

/-- A part that binds names binds those that its construct declares, or those of a larger pattern. -/
theorem Sound.bindsPart_subset (h : Sound s t) (hregular : isRegularNode t)
    (hname : isName t.kind = false) {rest : List Syntax}
    (hparts : t.children = before ++ part :: rest) (hnamed : part.info.isNamed)
    (hbinds : bindsPart s.isBinding t.kind t.children before part) :
    part.boundNames ⊆ s.somewhere := by
  simp only [isRegularNode, and_eq_true] at hregular
  have hown : declaredBy t ⊆ s.somewhere := Subset.trans (declaredBy_subset t) h.declared
  have hbound {name : String} (hpart : isPart name before part) :
      partBoundNames name t.children = part.boundNames := by
    rw [hparts]
    exact partBoundNames_of_isPart hpart rest
  have hpattern := h.bound
  rw [boundNames_eq] at hpattern
  unfold bindsPart at hbinds
  split at hbinds
  case h_4 hk =>
    -- the name of a class that is an expression
    have hnone : part? "name" t.children = none := by simpa [hk] using hregular.2
    rw [hparts, part?_of_isPart hbinds] at hnone
    cases hnone
  case h_3 hk =>
    rw [and_eq_true] at hbinds
    rw [declaredBy, hk] at hown
    simp only [hbinds.1, if_true] at hown
    rwa [← hbound hbinds.2]
  case h_6 hk | h_7 hk | h_8 hk =>
    rw [and_eq_true] at hbinds
    rw [hk] at hpattern
    rw [← hbound hbinds.2]
    exact hpattern hbinds.1
  case h_9 =>
    have hmem : part ∈ t.children := by rw [hparts]; simp
    have hother : t.kind ≠ "shorthand_property_identifier_pattern" := by
      intro hk
      have hempty : t.children = [] := by simpa [hk] using hregular.1.1.1.2
      rw [hempty] at hmem
      exact not_mem_nil hmem
    refine Subset.trans (boundNames_subset_all hmem hnamed) ?_
    have hall := hpattern hbinds
    split at hall <;> simp_all [isName]
  all_goals
    next hk =>
    rw [declaredBy, hk] at hown
    rwa [← hbound hbinds]

theorem Sound.ofPart (h : Sound s t) (hregular : isRegularNode t) (hkind : isFunction t.kind = false)
    (hname : isName t.kind = false) {rest : List Syntax}
    (hparts : t.children = before ++ part :: rest) (hnamed : part.info.isNamed) :
    Sound (ofPart s t.kind t.children before part) part := by
  have hscope := h.scopeNames_subset hregular
  have hmem : part ∈ t.children := by rw [hparts]; simp
  unfold Syntax.ofPart
  rw [if_neg (by simp [hkind])]
  refine ⟨append_subset.mpr ⟨hscope, h.inScope⟩, ?_,
    fun hbinds => h.bindsPart_subset hregular hname hparts hnamed hbinds⟩
  refine Subset.trans (declared_subset_somewhere hmem hnamed) ?_
  by_cases hclass : t.kind = "class_declaration"
  · -- nothing is declared in a class
    simp only [isRegularNode, and_eq_true] at hregular
    have hempty : somewhereDeclared t.children = [] := by simpa [hclass] using hregular.1.2
    rw [hempty]
    exact nil_subset _
  · exact Subset.trans (somewhere_subset_declared (by simp [hkind, hclass])) h.declared

theorem Sound.body (h : Sound s t) (hregular : isRegularNode t) (hkind : isFunction t.kind)
    {rest : List Syntax} (hparts : t.children = before ++ part :: rest)
    (hbody : isPart "body" before part) :
    Sound (functionPart s t.kind t.children before part) part := by
  have hpart : part? "body" t.children = some part := by
    rw [hparts]
    exact part?_of_isPart hbody rest
  have hempty : declaredBy part = [] := by
    simp only [isRegularNode, and_eq_true] at hregular
    simpa [hkind, hpart] using hregular.1.1.2
  have hinside : somewhereDeclared part.children ⊆ somewhereNames t.kind t.children := by
    rw [somewhereNames, hpart]
    exact subset_append_right _ _
  unfold functionPart
  rw [if_pos hbody]
  refine ⟨?_, ?_, by simp⟩
  · intro name hname
    simp only [headNames, mem_append] at hname
    rcases hname with (hvar | (hown | hparameters) | hparameter) | houter
    · exact mem_append_left _ (hinside (allVarNames_subset _ hvar))
    · refine mem_append_left _ ?_
      split at hown
      · exact absurd hown not_mem_nil
      · next hexpression =>
        have hdeclaration : t.kind ≠ "function_declaration" := by
          rintro hk
          simp [hk, isNamedDeclaration] at hexpression
        simp [somewhereNames, hdeclaration, hown]
    · exact mem_append_left _ (by simp [somewhereNames, hparameters])
    · exact mem_append_left _ (by simp [somewhereNames, hparameter])
    · exact mem_append_right _ (h.inScope houter)
  · rw [declared_eq, hempty, nil_append]
    split
    · exact nil_subset _
    · exact subset_append_of_subset_left _ hinside

theorem isFree_of_all {envs : List Syntax → Syntax → Surroundings} {all : List Syntax}
    (hparts : all = before ++ parts)
    (h : ∀ before part rest, all = before ++ part :: rest →
      ∀ o ∈ part.occurrences (envs before part), o.isReported → o.isFree) :
    ∀ o ∈ allOccurrences envs before parts, o.isReported → o.isFree := by
  induction parts generalizing before with
  | nil => exact fun o ho => absurd ho not_mem_nil
  | cons part parts ih =>
    rw [allOccurrences]
    exact forall_mem_append.mpr ⟨h before part parts hparts, ih (by rw [hparts]; simp)⟩

theorem not_isReported_of_not_isLookedAt (t : Syntax) (h : s.isLookedAt = false) :
    ∀ o ∈ t.occurrences s, ¬o.isReported := by
  intro o ho hreported
  have hnil := reported_eq_nil t h
  rw [reported, map_eq_nil_iff, filter_eq_nil_iff] at hnil
  exact hnil o ho hreported

/-- A name that is reported is not among those declared somewhere, so it is not declared for its
place. -/
theorem Sound.isFree {o : Occurrence} {info : NodeInfo} {children : List Syntax}
    (h : Sound s (.node info children)) (ho : o ∈ occurrence? s info) (hreported : o.isReported) :
    o.isFree := by
  simp only [Occurrence.isReported, and_eq_true, not_eq_true', contains_eq_mem,
    decide_eq_false_iff_not] at hreported
  simp only [Occurrence.isFree, and_eq_true, not_eq_true', contains_eq_mem,
    decide_eq_false_iff_not]
  rw [Option.mem_def] at ho
  unfold occurrence? at ho
  split at ho
  · next hkind =>
    cases ho
    refine ⟨eq_false_of_ne_true fun hbinding => hreported.2 (h.bound hbinding ?_),
      fun hscope => hreported.2 (h.inScope hscope)⟩
    rw [boundNames_eq, show (node info children).kind = _ from hkind]
    exact mem_cons_self
  · cases ho
    exact ⟨rfl, fun hscope => hreported.2 (h.inScope hscope)⟩
  · cases ho
    cases hreported.1
  · cases ho

theorem occurrences_of_mark (hregular : isRegularNode t) (hnamed : t.info.isNamed = false) :
    t.occurrences s = [] := by
  cases t with
  | node info children =>
    simp only [isRegularNode, and_eq_true, hnamed, Bool.false_or] at hregular
    obtain ⟨⟨⟨⟨⟨hempty, hnone⟩, -⟩, -⟩, -⟩, -⟩ := hregular
    obtain rfl : children = [] := isEmpty_iff.mp hempty
    have hname : occurrence? s info = none := by
      unfold occurrence? at hnone ⊢
      split
      all_goals simp_all [Syntax.info]
    rw [occurrences, hname, allOccurrences, ite_self]
    rfl

theorem isFree_of_isReported (t : Syntax) (hsound : Sound s t)
    (hregular : ∀ node ∈ t.nodes, isRegularNode node) :
    ∀ o ∈ t.occurrences s, o.isReported → o.isFree := by
  induction t using parts_induction generalizing s with
  | node info children ih =>
    have hnode := hregular _ (mem_nodes_self _)
    rw [occurrences]
    refine forall_mem_append.mpr ⟨fun o ho => hsound.isFree (Option.mem_toList.mp ho), ?_⟩
    split
    · exact fun o ho => absurd ho not_mem_nil
    next hname =>
    refine isFree_of_all (nil_append children).symm fun before part rest hparts => ?_
    have hpart : part ∈ children := by rw [hparts]; simp
    have hbelow : ∀ node ∈ part.nodes, isRegularNode node := fun node hmem =>
      hregular node (mem_nodes_of_child hpart hmem)
    cases hnamed : part.info.isNamed with
    | false =>
      rw [occurrences_of_mark (hbelow part part.mem_nodes_self) hnamed]
      exact fun o ho => absurd ho not_mem_nil
    | true =>
      cases hfunction : isFunction info.kind with
      | false =>
        exact ih part hpart (hsound.ofPart hnode hfunction (eq_false_of_ne_true hname) hparts hnamed)
          hbelow
      | true =>
        rw [show ofPart s info.kind children before part = functionPart s info.kind children before part
          from if_pos hfunction]
        by_cases hbody : isPart "body" before part
        · exact ih part hpart (hsound.body hnode hfunction hparts hbody) hbelow
        · -- the head of a function is not looked at
          have hhead : (functionPart s info.kind children before part).isLookedAt = false := by
            unfold functionPart
            rw [if_neg hbody]
            split <;> rfl
          exact fun o ho hreported =>
            absurd hreported (not_isReported_of_not_isLookedAt part hhead o ho)

end Syntax

open Syntax (Occurrence)

theorem mem_namesOf {test : Occurrence → Bool} {os : List Occurrence} {name : String} :
    name ∈ namesOf test os ↔ ∃ o ∈ os, o.name = name ∧ test o = true := by
  simp only [namesOf, mem_eraseDups, mem_map, mem_filter]
  constructor
  · rintro ⟨o, ⟨ho, htest⟩, hname⟩
    exact ⟨o, ho, hname, htest⟩
  · rintro ⟨o, ho, hname, htest⟩
    exact ⟨o, ⟨ho, htest⟩, hname⟩

namespace Syntax

/-- A node with its part in the construct around it. -/
def inPart (field : String) : Syntax → Syntax
  | .node info children => .node { info with field := some field } children

/-- The tree of a block that declares one of the three names in it. -/
def blockSample : Syntax :=
  .node { kind := "program", text := "\x7b let k = m; f(k); \x7d" }
    [.node { kind := "statement_block", text := "\x7b let k = m; f(k); \x7d" }
      [mark "\x7b" 0,
        .node { kind := "lexical_declaration", text := "let k = m;", start := 2 }
          [inPart "kind" (mark "let" 2),
            .node { kind := "variable_declarator", text := "k = m", start := 6 }
              [inPart "name" (leaf "identifier" "k" 6), mark "=" 8,
                inPart "value" (leaf "identifier" "m" 10)],
            mark ";" 11],
        .node { kind := "expression_statement", text := "f(k);", start := 13 }
          [.node { kind := "call_expression", text := "f(k)", start := 13 }
            [inPart "function" (leaf "identifier" "f" 13),
              inPart "arguments" (.node { kind := "arguments", text := "(k)", start := 14 }
                [mark "(" 14, leaf "identifier" "k" 15, mark ")" 16])],
            mark ";" 17],
        mark "\x7d" 19]]

/-- The tree of a function whose parameter has a default value. -/
def defaultSample : Syntax :=
  .node { kind := "program", text := "function f(a = b) \x7b return a; \x7d" }
    [.node { kind := "function_declaration", text := "function f(a = b) \x7b return a; \x7d" }
      [mark "function" 0, inPart "name" (leaf "identifier" "f" 9),
        inPart "parameters" (.node { kind := "formal_parameters", text := "(a = b)", start := 10 }
          [mark "(" 10,
            .node { kind := "assignment_pattern", text := "a = b", start := 11 }
              [inPart "left" (leaf "identifier" "a" 11), mark "=" 13,
                inPart "right" (leaf "identifier" "b" 15)],
            mark ")" 16]),
        inPart "body" (.node { kind := "statement_block", text := "\x7b return a; \x7d", start := 18 }
          [mark "\x7b" 18,
            .node { kind := "return_statement", text := "return a;", start := 20 }
              [mark "return" 20, leaf "identifier" "a" 27, mark ";" 28],
            mark "\x7d" 30])]]

end Syntax

end Script
end PugTemplate
