import PugTemplate.Plugin
/-!
# Adding hooks

Four tables of hooks and one list of claims have to stay in step, whatever is tried. A hook is
refused if its context does not take hooks of its sort, or if its pair of a context and a token kind
belongs to another hook; nothing has changed then. So the tables hold exactly the hooks that have
been accepted, and a pair belongs to the first of them that asked for it.
-/

namespace PugTemplate

open List
namespace Plugins

namespace Registration

/-! ## What a call asks for -/

def key? : Registration → Option HookKey
  | .lexer _ => none
  | .expression kind _ => some (.expression, kind)
  | .nodes context kind _ => some (context, kind)
  | .blockCode kind _ => some (.blockCode, kind)
  | .tag context kind _ => some (context, kind)

/-- The context of the hook takes hooks of its sort. -/
def fits : Registration → Bool
  | .nodes context _ _ => context.takesNodes
  | .tag context _ _ => context.takesTags
  | _ => true

def isRefused (r : Registration) (p : Plugins) : Bool := !r.fits || r.key?.any p.claimed.contains

/-- What is stored for the hook in the table for expressions. -/
def expression? : Registration → Option (String × ExpressionHook)
  | .expression kind hook => some (kind, hook)
  | _ => none

/-- What is stored for the hook in the table for nodes. -/
def nodes? : Registration → Option (HookKey × NodesHook)
  | .nodes context kind hook => some ((context, kind), hook)
  | _ => none

/-- What is stored for the hook in the table for blocks of code. -/
def blockCode? : Registration → Option (String × BlockCodeHook)
  | .blockCode kind hook => some (kind, hook)
  | _ => none

/-- What is stored for the hook in the table for tags. -/
def tag? : Registration → Option (HookKey × TagHook)
  | .tag context kind hook => some ((context, kind), hook)
  | _ => none

end Registration

/-! ## One call -/

/-- The set with a hook in its table, and the pair of the hook claimed. -/
def put (p : Plugins) : Registration → Plugins
  | .lexer hook => { p with lexer := p.lexer ++ [hook] }
  | .expression kind hook =>
    { p with expressions := p.expressions ++ [(kind, hook)]
             claimed := p.claimed ++ [(.expression, kind)] }
  | .nodes context kind hook =>
    { p with nodes := p.nodes ++ [((context, kind), hook)]
             claimed := p.claimed ++ [(context, kind)] }
  | .blockCode kind hook =>
    { p with blockCode := p.blockCode ++ [(kind, hook)]
             claimed := p.claimed ++ [(.blockCode, kind)] }
  | .tag context kind hook =>
    { p with tags := p.tags ++ [((context, kind), hook)]
             claimed := p.claimed ++ [(context, kind)] }

/-- **What comes of a call**: it is refused, and nothing has changed, or its hook is stored. -/
inductive Outcome (r : Registration) (p : Plugins) : Except Diagnostic Unit × Plugins → Prop where
  | refused {d : Diagnostic} (hrefused : r.isRefused p = true)
      (hconflict : d.category = .pluginConflict) : Outcome r p (.error d, p)
  | stored (hrefused : r.isRefused p = false) : Outcome r p (.ok (), p.put r)

variable {p q : Plugins} {β α : Type} {d : Diagnostic} {r : Registration} {rs : List Registration}

theorem run_bind_ok {x : Registering α} {f : α → Registering β} {a : α}
    (h : Registering.run x p = (.ok a, q)) :
    Registering.run (x >>= f) p = Registering.run (f a) q := by
  show (ExceptT.bindCont f (Registering.run x p).1).run (Registering.run x p).2 = _
  rw [h]
  rfl

theorem run_bind_error {x : Registering α} {f : α → Registering β}
    (h : Registering.run x p = (.error d, q)) : Registering.run (x >>= f) p = (.error d, q) := by
  show (ExceptT.bindCont f (Registering.run x p).1).run (Registering.run x p).2 = _
  rw [h]
  rfl

theorem run_claim (key : HookKey) (p : Plugins) : Registering.run (claim key) p =
      if p.claimed.contains key then (.error (.unlocated (.claimedTwice key.1.name key.2) none), p)
      else (.ok (), { p with claimed := p.claimed ++ [key] }) := by
  have hg : Registering.run get p = (.ok p, p) := rfl
  unfold claim
  rw [run_bind_ok hg]
  cases p.claimed.contains key <;> rfl

theorem Outcome.of_claim {key : HookKey} {change : Plugins → Plugins} (hf : r.fits)
    (hk : r.key? = some key) (hp : change { p with claimed := p.claimed ++ [key] } = p.put r) :
    Outcome r p (Registering.run (do claim key; modify change) p) := by
  have hr : r.isRefused p = p.claimed.contains key := by
    rw [Registration.isRefused, hf, hk]
    rfl
  have hc := run_claim key p
  by_cases ht : p.claimed.contains key
  · rw [if_pos ht] at hc
    rw [run_bind_error hc]
    exact .refused (hr.trans ht) rfl
  · rw [if_neg ht] at hc
    rw [run_bind_ok hc]
    show Outcome r p (.ok (), change { p with claimed := p.claimed ++ [key] })
    rw [hp]
    exact .stored (hr.trans (Bool.eq_false_iff.mpr ht))

theorem Outcome.of_unfit (hf : r.fits = false) (hc : d.category = .pluginConflict) :
    Outcome r p (.error d, p) := by
  refine .refused ?_ hc
  rw [Registration.isRefused, hf]
  rfl

/-- **One call.** Hooks of every sort are refused for the same two reasons. -/
theorem outcome_perform (r : Registration) (p : Plugins) :
    Outcome r p (Registering.run r.perform p) := by
  cases r with
  | lexer hook => exact .stored rfl
  | expression kind hook | blockCode kind hook => exact .of_claim rfl rfl rfl
  | nodes context kind hook =>
    rw [Registration.perform]
    by_cases hf : context.takesNodes
    · rw [if_pos hf]
      exact .of_claim hf rfl rfl
    · rw [if_neg hf]
      exact .of_unfit (Bool.eq_false_iff.mpr hf) rfl
  | tag context kind hook =>
    rw [Registration.perform]
    by_cases hf : context.takesTags
    · rw [if_pos hf]
      exact .of_claim hf rfl rfl
    · rw [if_neg hf]
      exact .of_unfit (Bool.eq_false_iff.mpr hf) rfl

/-! ## Calls in turn -/

/-- The set after calls in turn, of which some may have failed. -/
def registerAll : List Registration → Plugins → Plugins
  | [], p => p
  | r :: rs, p => registerAll rs (Registering.run r.perform p).2

def accepted : List Registration → Plugins → List Registration
  | [], _ => []
  | r :: rs, p =>
    match Registering.run r.perform p with
    | (.ok _, q) => r :: accepted rs q
    | (.error _, q) => accepted rs q

/-- The set holds the hooks of some calls, in their order, and nothing else. -/
structure MadeOf (p : Plugins) (rs : List Registration) : Prop where
  expressions : p.expressions = rs.filterMap Registration.expression?
  nodes : p.nodes = rs.filterMap Registration.nodes?
  blockCode : p.blockCode = rs.filterMap Registration.blockCode?
  tags : p.tags = rs.filterMap Registration.tag?
  claimed : p.claimed = rs.filterMap Registration.key?
  fits : ∀ r ∈ rs, r.fits = true
  /-- No two of the calls are for one pair. -/
  exclusive : p.claimed.Nodup

theorem claimed_put (p : Plugins) (r : Registration) :
    (p.put r).claimed = p.claimed ++ r.key?.toList := by
  cases r <;> simp [put, Registration.key?]

theorem MadeOf.put (h : p.MadeOf rs) (hr : r.isRefused p = false) :
    (p.put r).MadeOf (rs ++ [r]) := by
  obtain ⟨hf, hfr⟩ := Bool.or_eq_false_iff.mp hr
  constructor
  case expressions =>
    rw [filterMap_append, ← h.expressions]
    cases r <;> simp [put, Registration.expression?]
  case nodes =>
    rw [filterMap_append, ← h.nodes]
    cases r <;> simp [put, Registration.nodes?]
  case blockCode =>
    rw [filterMap_append, ← h.blockCode]
    cases r <;> simp [put, Registration.blockCode?]
  case tags =>
    rw [filterMap_append, ← h.tags]
    cases r <;> simp [put, Registration.tag?]
  case claimed =>
    rw [filterMap_append, ← h.claimed, claimed_put]
    cases hk : r.key? <;> simp [hk]
  case fits =>
    intro r' hr'
    rcases mem_append.mp hr' with hr' | hr'
    · exact h.fits r' hr'
    · rw [mem_singleton.mp hr']
      simpa using hf
  case exclusive =>
    rw [claimed_put]
    cases hk : r.key? with
    | none => simpa using h.exclusive
    | some key =>
      have hn : key ∉ p.claimed := by simpa [hk] using hfr
      refine nodup_append.mpr ⟨h.exclusive, by simp, ?_⟩
      intro key' hk' key'' hk'' heq
      rw [heq, mem_singleton.mp hk''] at hk'
      exact hn hk'

/-- **A run** keeps in step: the set holds the hooks of all calls that have succeeded. -/
theorem MadeOf.registerAll {before : List Registration} (h : p.MadeOf before)
    (rs : List Registration) : (registerAll rs p).MadeOf (before ++ accepted rs p) := by
  induction rs generalizing p before with
  | nil => simpa [registerAll, accepted] using h
  | cons r rs ih =>
    unfold registerAll accepted
    have ho := outcome_perform r p
    generalize Registering.run r.perform p = result at ho
    cases ho with
    | refused => exact ih h
    | stored hr =>
      have hn := ih (h.put hr)
      rwa [append_assoc] at hn

theorem madeOf_registerAll (rs : List Registration) :
    (registerAll rs {}).MadeOf (accepted rs {}) := by
  have hem : MadeOf {} [] := ⟨rfl, rfl, rfl, rfl, rfl, by rintro _ ⟨⟩, nodup_nil⟩
  exact hem.registerAll rs

theorem accepted_append (rs more : List Registration) (p : Plugins) :
    accepted (rs ++ more) p = accepted rs p ++ accepted more (registerAll rs p) := by
  induction rs generalizing p with
  | nil => rfl
  | cons r rs ih =>
    rw [cons_append, accepted, accepted, registerAll]
    have ho := outcome_perform r p
    generalize Registering.run r.perform p = result at ho
    cases ho with
    | refused => exact ih p
    | stored => exact congrArg (r :: ·) (ih (p.put r))

/-! ## Claims -/

/-- The pairs under which hooks are stored in the four tables. -/
def storedKeys (p : Plugins) : List HookKey :=
  p.expressions.map (fun e => (.expression, e.1)) ++ p.nodes.map (·.1) ++
    p.blockCode.map (fun e => (.blockCode, e.1)) ++ p.tags.map (·.1)

/-- The pair of a call is the one under which its hook is stored, in whichever table. -/
theorem key?_eq_some_iff (r : Registration) (key : HookKey) : r.key? = some key ↔
      (∃ e, r.expression? = some e ∧ (.expression, e.1) = key) ∨
        (∃ e, r.nodes? = some e ∧ e.1 = key) ∨
        (∃ e, r.blockCode? = some e ∧ (.blockCode, e.1) = key) ∨
        ∃ e, r.tag? = some e ∧ e.1 = key := by
  cases r <;> simp [Registration.key?, Registration.expression?, Registration.nodes?,
    Registration.blockCode?, Registration.tag?]

theorem MadeOf.mem_claimed_iff (h : p.MadeOf rs) (key : HookKey) :
    key ∈ p.claimed ↔ key ∈ p.storedKeys := by
  have hm {α : Type} {table : List α} {entry : Registration → Option α} {keyOf : α → HookKey}
      (ht : table = rs.filterMap entry) :
      key ∈ table.map keyOf ↔ ∃ r ∈ rs, ∃ e, entry r = some e ∧ keyOf e = key := by
    rw [ht, mem_map]
    constructor
    · rintro ⟨e, he, hk⟩
      obtain ⟨r, hr, hen⟩ := mem_filterMap.mp he
      exact ⟨r, hr, e, hen, hk⟩
    · rintro ⟨r, hr, e, hen, hk⟩
      exact ⟨e, mem_filterMap.mpr ⟨r, hr, hen⟩, hk⟩
  rw [storedKeys, mem_append, mem_append, mem_append, hm h.expressions,
    hm h.nodes, hm h.blockCode, hm h.tags, h.claimed, mem_filterMap]
  simp only [key?_eq_some_iff, and_or_left, exists_or, or_assoc]

/-! ## Looking up hooks -/

def firstFor (rs : List Registration) (key : HookKey) : Option Registration :=
  rs.find? fun r => r.key? == some key

/-- **A table** has the hook of the first call for a pair, if it holds the hooks of all calls for the
pair, or of none. -/
theorem lookup_filterMap {κ η : Type} [BEq κ] [LawfulBEq κ]
    {entry : Registration → Option (κ × η)} (keyOf : κ → HookKey) (isHere : Bool)
    (hi : ∀ k k', keyOf k = keyOf k' → k = k')
    (hen : ∀ r e, entry r = some e → r.key? = some (keyOf e.1)) {k : κ}
    (hh : ∀ r ∈ rs, r.key? = some (keyOf k) → (entry r).isSome = isHere) :
    (rs.filterMap entry).lookup k = (firstFor rs (keyOf k)).bind fun r => (entry r).map (·.2) := by
  induction rs with
  | nil => rfl
  | cons r rs ih =>
    obtain ⟨hr, hre⟩ := forall_mem_cons.mp hh
    unfold firstFor
    by_cases hke : r.key? = some (keyOf k)
    · rw [find?_cons_of_pos (by simpa using hke), Option.bind_some]
      cases hs : entry r with
      | none =>
        -- the table holds no hook for the pair, so the rest of the calls does not matter
        rw [filterMap_cons_none hs]
        rw [hs] at hr
        refine lookup_eq_none_iff.mpr fun e he => ?_
        obtain ⟨r', hr', he⟩ := mem_filterMap.mp he
        rw [bne_iff_ne]
        rintro rfl
        have hso := hre r' hr' (hen r' e he)
        rw [he, ← hr hke] at hso
        cases hso
      | some e =>
        have hk : e.1 = k := hi _ _ (Option.some.inj ((hen r e hs).symm.trans hke))
        rw [filterMap_cons_some hs, ← hk]
        exact lookup_cons_self
    · rw [find?_cons_of_neg (by simpa using hke)]
      cases hs : entry r with
      | none =>
        rw [filterMap_cons_none hs]
        exact ih hre
      | some e =>
        have hk : (k == e.1) = false := by
          rw [beq_eq_false_iff_ne]
          rintro rfl
          exact hke (hen r e hs)
        rw [filterMap_cons_some hs, lookup_cons, hk]
        exact ih hre

/-- **A context belongs to one table**: the hooks that fit there are stored in that table only. -/
theorem isSome_entry {context : HookContext} {kind : String}
    (hk : r.key? = some (context, kind)) (hf : r.fits) :
    r.expression?.isSome = (context == .expression) ∧ r.nodes?.isSome = context.takesNodes ∧
      r.blockCode?.isSome = (context == .blockCode) ∧ r.tag?.isSome = context.takesTags := by
  cases r with
  | lexer hook => cases hk
  | expression kind' hook | blockCode kind' hook =>
    cases hk
    exact ⟨rfl, rfl, rfl, rfl⟩
  | nodes context' kind' hook | tag context' kind' hook =>
    cases hk
    cases context <;> simp_all [Registration.fits, HookContext.takesNodes, HookContext.takesTags,
      Registration.expression?, Registration.nodes?, Registration.blockCode?, Registration.tag?]

/-- What is looked up for a pair is the hook of the first of some calls for the pair. -/
structure LooksUp (p : Plugins) (rs : List Registration) : Prop where
  expression : ∀ kind, p.expression? kind =
    (firstFor rs (.expression, kind)).bind fun r => r.expression?.map (·.2)
  nodes : ∀ context kind, p.nodes? context kind =
    (firstFor rs (context, kind)).bind fun r => r.nodes?.map (·.2)
  blockCode : ∀ kind, p.blockCode? kind =
    (firstFor rs (.blockCode, kind)).bind fun r => r.blockCode?.map (·.2)
  tag : ∀ context kind, p.tag? context kind =
    (firstFor rs (context, kind)).bind fun r => r.tag?.map (·.2)

/-- **Looking up** a pair finds the hook of the first call for it that succeeded. -/
theorem MadeOf.looksUp (h : p.MadeOf rs) : p.LooksUp rs := by
  constructor
  · intro kind
    rw [expression?, h.expressions]
    refine lookup_filterMap (HookContext.expression, ·) true ?_ ?_ ?_
    · intro k k' hk
      exact congrArg Prod.snd hk
    · intro r e he
      exact (key?_eq_some_iff r _).mpr (.inl ⟨e, he, rfl⟩)
    · intro r hr hke
      exact (isSome_entry hke (h.fits r hr)).1
  · intro context kind
    rw [nodes?, h.nodes]
    refine lookup_filterMap id context.takesNodes ?_ ?_ ?_
    · intro k k' hk
      exact hk
    · intro r e he
      exact (key?_eq_some_iff r _).mpr (.inr (.inl ⟨e, he, rfl⟩))
    · intro r hr hke
      exact (isSome_entry hke (h.fits r hr)).2.1
  · intro kind
    rw [blockCode?, h.blockCode]
    refine lookup_filterMap (HookContext.blockCode, ·) true ?_ ?_ ?_
    · intro k k' hk
      exact congrArg Prod.snd hk
    · intro r e he
      exact (key?_eq_some_iff r _).mpr (.inr (.inr (.inl ⟨e, he, rfl⟩)))
    · intro r hr hke
      exact (isSome_entry hke (h.fits r hr)).2.2.1
  · intro context kind
    rw [tag?, h.tags]
    refine lookup_filterMap id context.takesTags ?_ ?_ ?_
    · intro k k' hk
      exact hk
    · intro r e he
      exact (key?_eq_some_iff r _).mpr (.inr (.inr (.inr ⟨e, he, rfl⟩)))
    · intro r hr hke
      exact (isSome_entry hke (h.fits r hr)).2.2.2

theorem isRefused_iff (r : Registration) (p : Plugins) :
    r.isRefused p ↔ r.fits = false ∨ ∃ key ∈ p.claimed, r.key? = some key := by
  rw [Registration.isRefused]
  cases r.key? with
  | none => simp
  | some key => simp

/-- **Hooks exclude each other.** After any calls, the claims are the pairs under which hooks are
stored, each of them once. A further call fails exactly if its context does not take its hook or its
pair is claimed; it fails with a conflict then, and has changed nothing. What is looked up for a pair
is the hook of the first call for it that succeeded, and stays so whatever is tried afterwards. -/
theorem registerAll_exclusive (rs : List Registration) :
    let p := registerAll rs {}
    let done := accepted rs {}
    (∀ key, key ∈ p.claimed ↔ key ∈ p.storedKeys) ∧ p.claimed.Nodup ∧
      (∀ r : Registration, (∃ d q, Registering.run r.perform p = (.error d, q)) ↔
        r.fits = false ∨ ∃ key ∈ p.claimed, r.key? = some key) ∧
      (∀ (r : Registration) d q, Registering.run r.perform p = (.error d, q) →
        d.category = .pluginConflict ∧ q = p) ∧
      p.LooksUp done ∧
      ∀ more key r, firstFor done key = some r →
        firstFor (accepted (rs ++ more) {}) key = some r := by
  intro p done
  have hmade : p.MadeOf done := madeOf_registerAll rs
  refine ⟨hmade.mem_claimed_iff, hmade.exclusive, ?_, ?_, hmade.looksUp, ?_⟩
  · intro r
    rw [← isRefused_iff]
    have houtcome := outcome_perform r p
    generalize Registering.run r.perform p = result at houtcome
    cases houtcome with
    | refused hrefused => exact iff_of_true ⟨_, _, rfl⟩ hrefused
    | stored hrefused =>
      refine iff_of_false ?_ (Bool.eq_false_iff.mp hrefused)
      rintro ⟨d, q, h⟩
      cases h
  · intro r d q hrun
    have houtcome := outcome_perform r p
    rw [hrun] at houtcome
    cases houtcome with
    | refused _ hconflict => exact ⟨hconflict, rfl⟩
  · intro more key r hfirst
    rw [accepted_append, firstFor, List.find?_append, Option.or_eq_some_iff]
    exact .inl hfirst

end Plugins
end PugTemplate
