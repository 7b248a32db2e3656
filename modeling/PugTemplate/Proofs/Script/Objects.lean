import Mathlib.Data.List.Induction
import PugTemplate.Proofs.Script.Addition
import PugTemplate.Proofs.Script.Runtime
import PugTemplate.Proofs.Script.Snippets
/-!
# Constant objects

A constant object keeps its keys in the order in which they first appear. The object that a script makes
of the same literal has keys of its own: a number may be spelled in another way there, and a loop
takes the keys that are indices first. So a loop goes through the keys as they stand only if the
indices stand first and rise. For such objects the class names, styles and attributes that are
written beforehand are those that the helpers give.
-/

namespace PugTemplate

open List

open Script.Units (ofText)

namespace Value

/-! ## Entries -/

/-- The entries of an object that is built in this order. -/
def stored (entries : List (String × Value)) : List (String × Value) :=
  entries.foldl (fun acc e => setEntry e.1 e.2 acc) []

theorem map_fst_setEntry (key : String) (v : Value) (entries : List (String × Value)) :
    (setEntry key v entries).map (·.1) =
      if key ∈ entries.map (·.1) then entries.map (·.1) else entries.map (·.1) ++ [key] := by
  induction entries with
  | nil => rfl
  | cons e entries ih =>
    rw [setEntry]
    by_cases h : e.1 = key
    · simp [h]
    · simp only [beq_iff_eq, h, if_false, map_cons, ih, mem_cons, Ne.symm h, false_or]
      split <;> rfl

theorem lookup_pair (key k : String) (v : Value) (entries : List (String × Value)) :
    ((key, v) :: entries).lookup k = if k = key then some v else entries.lookup k := by
  by_cases h : k = key
  · simp [h]
  · simp [lookup_cons, beq_eq_false_iff_ne.mpr h, h]

theorem lookup_setEntry (key k : String) (v : Value) (entries : List (String × Value)) :
    (setEntry key v entries).lookup k = if k = key then some v else entries.lookup k := by
  induction entries with
  | nil => exact lookup_pair key k v []
  | cons e entries ih =>
    obtain ⟨key', v'⟩ := e
    rw [setEntry]
    by_cases h : key' = key
    · by_cases hk : k = key <;> simp [lookup_pair, h, hk]
    · simp only [beq_iff_eq, h, if_false, lookup_pair, ih]
      by_cases hk : k = key'
      · simp [hk, h]
      · simp [hk]

/-- **The keys** stand in the order of their first appearance. -/
theorem map_fst_stored (entries : List (String × Value)) :
    (stored entries).map (·.1) = (entries.map (·.1)).eraseDups := by
  induction entries using reverseRecOn with
  | nil => rfl
  | append_singleton entries e ih =>
    rw [stored, foldl_append, map_append, eraseDups_append]
    show (setEntry e.1 e.2 (stored entries)).map (·.1) = _
    rw [map_fst_setEntry, ih]
    by_cases h : e.1 ∈ entries.map (·.1)
    · simp [removeAll, h]
    · simp [removeAll, h, eraseDups_cons]

theorem nodup_stored (entries : List (String × Value)) : ((stored entries).map (·.1)).Nodup := by
  induction entries using reverseRecOn with
  | nil => exact nodup_nil
  | append_singleton entries e ih =>
    rw [stored, foldl_append]
    show ((setEntry e.1 e.2 (stored entries)).map (·.1)).Nodup
    rw [map_fst_setEntry]
    split
    · exact ih
    · next h =>
      rw [← concat_eq_append]
      exact ih.concat h

/-- **A key** has its last value. -/
theorem lookup_stored (entries : List (String × Value)) (key : String) :
    (stored entries).lookup key = entries.reverse.lookup key := by
  induction entries using reverseRecOn with
  | nil => rfl
  | append_singleton entries e ih =>
    rw [stored, foldl_append, reverse_append]
    show (setEntry e.1 e.2 (stored entries)).lookup key = lookup key ((e.1, e.2) :: entries.reverse)
    rw [lookup_setEntry, lookup_pair, ih]

end Value

namespace Script

/-! ## The object of a script -/

/-- Each key once, at its first place and with its last value. -/
def propertiesOf (entries : List (Units × Datum)) : List (Units × Datum) :=
  (entries.map (·.1)).eraseDups.filterMap fun key =>
    (entries.reverse.lookup key).map fun v => (key, v)

namespace Syntax

/-- The name of a member for a script: a number is taken as a script writes it. -/
def scriptKey? (key : Syntax) : Option String :=
  match key.kind with
  | "property_identifier" => some key.text
  | "string" => literalText? key.text
  | "number" => (numberValue? key.text).map fun x => (Numeral.finite x).text
  | _ => none

mutual
/-- What a script makes of a constant expression. -/
def datum? : Syntax → Option Datum
  | .node info children =>
    match info.kind with
    | "parenthesized_expression" => firstDatum? children
    | "array" => (itemData? .open children).map .array
    | "object" => (memberData? children).map fun entries => .object (propertiesOf entries)
    | "binary_expression" => do
      let operator ← part? "operator" children
      let a ← partValue? "left" children
      match operator.kind with
      | "&&" => if a.truthy then partDatum? "right" children else partDatum? "left" children
      | "||" => if a.truthy then partDatum? "left" children else partDatum? "right" children
      | "??" => if a matches .null then partDatum? "right" children else partDatum? "left" children
      | _ => ((Syntax.node info children).value?).map Datum.of
    | "ternary_expression" => do
      let c ← partValue? "condition" children
      if c.truthy then partDatum? "consequence" children else partDatum? "alternative" children
    | _ => ((Syntax.node info children).value?).map Datum.of

/-- `datum?` of the first part that is neither a mark nor a comment. -/
def firstDatum? : List Syntax → Option Datum
  | [] => none
  | t :: ts => if t.info.isNamed && t.kind != "comment" then t.datum? else firstDatum? ts

/-- `datum?` of the part with a name. -/
def partDatum? (name : String) : List Syntax → Option Datum
  | [] => none
  | t :: ts => if t.isField name then t.datum? else partDatum? name ts

/-- `datum?` of an array's items, between its marks. -/
def itemData? : ItemPlace → List Syntax → Option (List Datum)
  | _, [] => some []
  | place, t :: ts =>
    match t.kind with
    | "[" => itemData? place ts
    | "]" => itemData? place ts
    | "comment" => itemData? place ts
    | "," => if place == .open then none else itemData? .open ts
    | _ => do
      let v ← t.datum?
      let vs ← itemData? .filled ts
      pure (v :: vs)

/-- The keys and `datum?` of an object's members, in order. One key does not name a property. -/
def memberData? : List Syntax → Option (List (Units × Datum))
  | [] => some []
  | t :: ts =>
    if !(t.info.isNamed && t.kind != "comment") then memberData? ts
    else if t.kind != "pair" then none
    else do
      let k ← scriptKey? (← t.child? "key")
      let v ← t.pairDatum?
      let vs ← memberData? ts
      pure (if k == "__proto__" then vs else (ofText k, v) :: vs)

/-- `datum?` of an object's member. -/
def pairDatum? : Syntax → Option Datum
  | .node _ children => partDatum? "value" children
end

/-- The key of a member is stored as a script has it. -/
def isOwnKey (key : Syntax) : Bool :=
  memberKey? key == scriptKey? key && memberKey? key != some "__proto__"

/-- The members of objects are stored under the keys that they have in a script. -/
def isSpelled (t : Syntax) : Bool :=
  t.nodes.all fun u => u.kind != "pair" || (u.child? "key").all isOwnKey

end Syntax

/-! ## Objects with the same keys -/

theorem filterMap_lookup {α β : Type} [BEq α] [LawfulBEq α] {l : List (α × β)}
    (h : (l.map (·.1)).Nodup) :
    (l.map (·.1)).filterMap (fun key => (l.lookup key).map fun v => (key, v)) = l := by
  rw [filterMap_map]
  calc _ = l.filterMap some := filterMap_congr fun p hp => by simp [Datum.lookup_of_mem h hp]
    _ = l := filterMap_some

theorem eraseDups_map_ofText (keys : List String) :
    (keys.map ofText).eraseDups = keys.eraseDups.map ofText := by
  induction keys using reverseRecOn with
  | nil => rfl
  | append_singleton keys key ih =>
    rw [map_append, eraseDups_append, eraseDups_append, map_append, ih]
    by_cases h : key ∈ keys <;>
      simp [removeAll, Units.ofText_inj, eraseDups_cons, h]

theorem lookup_ofText (entries : List (String × Value)) (key : String) :
    (entries.map fun e => (ofText e.1, Datum.of e.2)).lookup (ofText key) =
      (entries.lookup key).map Datum.of := by
  induction entries with
  | nil => rfl
  | cons e entries ih =>
    have hkey : (ofText key == ofText e.1) = (key == e.1) := by
      rw [Bool.eq_iff_iff, beq_iff_eq, beq_iff_eq, Units.ofText_inj]
    rw [map_cons, lookup_cons, lookup_cons, hkey, ih]
    cases key == e.1 <;> rfl

/-- **The same keys make the same object.** -/
theorem propertiesOf_map (entries : List (String × Value)) :
    propertiesOf (entries.map fun e => (ofText e.1, Datum.of e.2)) =
      Datum.ofEntries (Value.stored entries) := by
  have hstored := filterMap_lookup (Value.nodup_stored entries)
  rw [Value.map_fst_stored] at hstored
  rw [Datum.ofEntries_eq_map, ← hstored, propertiesOf, map_map, ← map_reverse]
  rw [show ((fun x : Units × Datum => x.1) ∘ fun e : String × Value => (ofText e.1, Datum.of e.2)) =
      ofText ∘ fun e => e.1 from rfl, ← map_map, eraseDups_map_ofText, filterMap_map, map_filterMap]
  refine filterMap_congr fun key _ => ?_
  rw [Function.comp, lookup_ofText, Value.lookup_stored]
  cases entries.reverse.lookup key <;> rfl

namespace Syntax

variable {parts : List Syntax}

/-- A script makes of these trees what they are folded to. -/
def Agree (parts : List Syntax) : Prop := ∀ t ∈ parts, t.datum? = t.value?.map Datum.of

theorem firstDatum?_eq (h : Agree parts) : firstDatum? parts = (firstValue? parts).map Datum.of := by
  induction parts with
  | nil => rfl
  | cons t ts ih =>
    obtain ⟨ht, hts⟩ := forall_mem_cons.mp h
    rw [firstDatum?, firstValue?, ht, ih hts]
    split <;> rfl

theorem partDatum?_eq (h : Agree parts) (name : String) :
    partDatum? name parts = (partValue? name parts).map Datum.of := by
  induction parts with
  | nil => rfl
  | cons t ts ih =>
    obtain ⟨ht, hts⟩ := forall_mem_cons.mp h
    rw [partDatum?, partValue?, ht, ih hts]
    split <;> rfl

theorem itemData?_eq (h : Agree parts) (place : ItemPlace) :
    itemData? place parts = (itemValues? place parts).map (·.map Datum.of) := by
  induction parts generalizing place with
  | nil => rfl
  | cons t ts ih =>
    obtain ⟨ht, hts⟩ := forall_mem_cons.mp h
    have ih := ih hts
    rw [itemData?, itemValues?]
    generalize t.kind = kind
    split
    case h_4 =>
      split
      · rfl
      · exact ih _
    case h_5 =>
      simp only [*]
      cases t.value? with
      | none => rfl
      | some v => cases itemValues? .filled ts <;> rfl
    all_goals simp only [*]

theorem memberData?_eq (h : ∀ t ∈ parts, t.pairDatum? = t.pairValue?.map Datum.of)
    (hkeys : ∀ t ∈ parts, t.kind = "pair" → (t.child? "key").all isOwnKey) :
    memberData? parts =
      (memberValues? parts).map fun entries => entries.map fun e => (ofText e.1, Datum.of e.2) := by
  induction parts with
  | nil => rfl
  | cons t ts ih =>
    obtain ⟨ht, hts⟩ := forall_mem_cons.mp h
    obtain ⟨hkey, hkeys⟩ := forall_mem_cons.mp hkeys
    rw [memberData?, memberValues?, ih hts hkeys, ht]
    split
    · rfl
    · split
      · rfl
      · next hpair =>
        have hkey := hkey (by simpa using hpair)
        cases hchild : t.child? "key" with
        | none => rfl
        | some key =>
          rw [hchild, Option.all_some, isOwnKey, Bool.and_eq_true, beq_iff_eq, bne_iff_ne] at hkey
          obtain ⟨hsame, hproto⟩ := hkey
          rw [Option.bind_eq_bind, Option.bind_some, ← hsame]
          cases hname : memberKey? key with
          | none => simp [hname]
          | some k =>
            have hk : k ≠ "__proto__" := by
              rintro rfl
              exact hproto hname
            cases t.pairValue? with
            | none => simp
            | some v => cases memberValues? ts <;> simp [hname, hk]

theorem isSpelled_of_child {info : NodeInfo} (h : (node info parts).isSpelled = true) {t : Syntax}
    (ht : t ∈ parts) : t.isSpelled = true :=
  all_eq_true.mpr fun u hu => all_eq_true.mp h u (mem_nodes_of_child ht hu)

theorem isOwnKey_of_isSpelled {info : NodeInfo} (h : (node info parts).isSpelled = true) :
    ∀ t ∈ parts, t.kind = "pair" → (t.child? "key").all isOwnKey := by
  intro t ht hkind
  have hspelled := all_eq_true.mp (isSpelled_of_child h ht) t (mem_nodes_self t)
  simpa [hkind] using hspelled

/-- **A script makes of a literal what it is folded to**, if its keys are spelled alike. -/
theorem datum?_eq (t : Syntax) (h : t.isSpelled = true) :
    t.datum? = t.value?.map Datum.of ∧ t.pairDatum? = t.pairValue?.map Datum.of := by
  induction t using parts_induction with
  | node info children ih =>
    have hparts : Agree children := fun t ht =>
      (ih t ht (isSpelled_of_child h ht)).1
    refine ⟨?_, partDatum?_eq hparts "value"⟩
    rw [datum?]
    split
    case h_1 hkind =>
      rw [firstDatum?_eq hparts, value?]
      simp only [hkind]
    case h_2 hkind =>
      rw [itemData?_eq hparts, value?]
      simp only [hkind]
      cases itemValues? .open children <;> simp [Datum.of, Datum.ofItems_eq_map]
    case h_3 hkind =>
      have hpairs : ∀ t ∈ children, t.pairDatum? = t.pairValue?.map Datum.of := fun t ht =>
        (ih t ht (isSpelled_of_child h ht)).2
      rw [memberData?_eq hpairs (isOwnKey_of_isSpelled h), value?]
      simp only [hkind]
      cases memberValues? children with
      | none => rfl
      | some entries => simp [Datum.of, Value.ofEntries, propertiesOf_map, Value.stored]
    case h_4 hkind =>
      rw [value?]
      simp only [hkind]
      cases part? "operator" children with
      | none => rfl
      | some operator =>
        cases hleft : partValue? "left" children with
        | none => rfl
        | some a =>
          simp only [Option.bind_eq_bind, Option.bind_some, partDatum?_eq hparts, hleft]
          generalize operator.kind = operator
          split
          case h_3 => cases a <;> rfl
          case h_4 => simp only [*]
          all_goals split <;> rfl
    case h_5 hkind =>
      rw [value?]
      simp only [hkind]
      cases partValue? "condition" children with
      | none => rfl
      | some c =>
        simp only [Option.bind_eq_bind, Option.bind_some, partDatum?_eq hparts]
        split <;> rfl
    case h_6 => rfl

theorem value?_object {t : Syntax} {v : Value} (hkind : t.kind = "object") (h : t.value? = some v) :
    ∃ entries, memberValues? t.children = some entries ∧ v = .object (Value.stored entries) := by
  cases t with
  | node info children =>
    rw [value?] at h
    simp only [show info.kind = "object" from hkind] at h
    obtain ⟨entries, hentries, rfl⟩ := Option.map_eq_some_iff.mp h
    exact ⟨entries, hentries, rfl⟩

end Syntax

/-! ## The order of the keys -/

/-- A member with a key of some kind and a number. -/
def numberMember (kind key number : String) : Syntax :=
  .node { kind := "pair", text := key ++ ": " ++ number }
    [.node { kind, field := "key", text := key } [],
      .node { kind := "number", field := "value", text := number } []]

/-- `{1e21: 1}` is stored under `1000000000000000000000`, and a script has `1e+21`. -/
example : (numberMember "number" "1e21" "1").isSpelled = false := by decide +kernel

end Script
end PugTemplate
