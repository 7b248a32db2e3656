import PugTemplate.Proofs.Script.Balanced
/-!
# Solid texts

Texts that leave nothing open, with slashes only in strings, and with blanks and commas only where
something is open. What such a text opens and closes does not depend on what stands before it: only a
slash is read by what it follows.
-/

namespace PugTemplate

open Option
namespace Nesting

/-- A level that is neither opened nor closed by a slash. -/
def Context.isSlashless : Context → Bool
  | .lineComment | .blockComment | .regex => false
  | _ => true

namespace State

/-- The text leaves nothing open. A slash in it stands in a string, and a blank or a comma stands
where something is open before it and behind it. -/
def isSolid (s : State) : List Char → Bool
  | [] => s.stack.isEmpty
  | c :: cs =>
    (c != '/' || s.isString) &&
      match s.push c with
      | some next =>
        ((s.isNesting false && next.isNesting false) || !(Text.isBlank c || c == ',')) &&
          next.isSolid cs
      | none => false

variable {s t next : State} {c : Char} {cs : List Char}

theorem exists_push_of_solid (h : s.isSolid (c :: cs)) :
    ∃ next, s.push c = some next ∧ (c = '/' → s.isString) ∧
      ((s.stack ≠ [] ∧ next.stack ≠ []) ∨ (Text.isBlank c = false ∧ c ≠ ',')) ∧
      next.isSolid cs := by
  rw [isSolid, Bool.and_eq_true, Bool.or_eq_true, bne_iff_ne] at h
  cases hp : s.push c with
  | none => simp [hp] at h
  | some next =>
    simp only [hp, isNesting, Bool.and_eq_true, Bool.or_eq_true] at h
    exact ⟨next, rfl, fun hc => h.1.resolve_left (absurd hc), by simpa using h.2.1, h.2.2⟩

/-! ## One character -/

/-- What a state goes on with if slashes do not count. -/
def core (s : State) : State := { stack := s.stack, escaped := s.escaped, dollar := s.dollar }

/-- Neither a comment nor a regular expression is open, and the flags belong to open levels. -/
structure Regular (s : State) : Prop where
  levels : ∀ level ∈ s.stack, level.isSlashless = true
  escaped : s.escaped = true → s.isString = true
  dollar : s.dollar = true → .templateQuote ∈ s.stack
  apart : s.escaped = true → s.current = some .templateQuote → s.dollar = false

/-- No slash waits for the next character. -/
structure Quiet (s : State) : Prop extends Regular s where
  regexStart : s.regexStart = false
  slash : s.history.head? = some '/' → s.isString = true

/-- The levels behind a character of code that is no slash. -/
def codeLevels (levels : List Context) (c : Char) : Option (List Context) :=
  if c == '\'' then some (.singleQuote :: levels)
  else if c == '"' then some (.doubleQuote :: levels)
  else Script.levelsAfter levels c

theorem isSlashless_codeLevels {levels after : List Context}
    (h : ∀ level ∈ levels, level.isSlashless) (ha : codeLevels levels c = some after) :
    (∀ level ∈ after, level.isSlashless) ∧ (.templateQuote ∈ levels → .templateQuote ∈ after) := by
  unfold codeLevels Script.levelsAfter at ha
  split_ifs at ha <;> cases ha <;> cases levels <;> grind [Context.isSlashless]

/-- A character of code, where neither it nor the one before it is a slash. -/
theorem inCode_of_ne (hc : c ≠ '/') (hs : s.history.head? ≠ some '/') :
    s.inCode c = (codeLevels s.stack c).map fun levels => { s with stack := levels } := by
  simp only [inCode, Script.levelsAfter, isCloser, current, codeLevels]
  cases s
  grind [enter, leave]

/-- **A character is read by the core of a state**, and leads to a regular one. -/
theorem Quiet.inContext (hs : s.Quiet) (hc : c = '/' → s.isString) :
    s.inContext c = (s.core.inContext c).map (fun n =>
      { s with stack := n.stack, escaped := n.escaped, dollar := n.dollar }) ∧
    ∀ n, s.core.inContext c = some n → n.Regular ∧ (c = '/' → n.isString) := by
  obtain ⟨⟨hl, hes, hd, ha⟩, hsta, hsla⟩ := hs
  by_cases hco : s.InCode
  · have hst : s.isString = false := by
      rcases hco with hno | ⟨closer, hb⟩
      · simp [isString, hno]
      · simp [isString, hb]
    have hne : c ≠ '/' := fun h => absurd (hc h) (by simp [hst])
    have hbe : s.history.head? ≠ some '/' := fun h => absurd (hsla h) (by simp [hst])
    rw [inContext_of_inCode hco, inContext_of_inCode (s := s.core) hco,
      inCode_of_ne hne hbe, inCode_of_ne hne (by rintro ⟨⟩)]
    refine ⟨by rw [map_map]; rfl, fun n hn => ?_⟩
    obtain ⟨levels, haf, rfl⟩ := map_eq_some_iff.mp hn
    obtain ⟨hsl, ht⟩ := isSlashless_codeLevels hl haf
    have hf : s.core.escaped → False := fun h =>
      absurd (hes h) (by simp [hst])
    exact ⟨⟨hsl, fun h => (hf h).elim, fun h => ht (hd h),
      fun h => (hf h).elim⟩, fun h => absurd h hne⟩
  · obtain ⟨stack, start, escaped, dollar, taken, history, last⟩ := s
    cases stack with
    | nil => exact absurd (.inl rfl) hco
    | cons level levels =>
      obtain ⟨hle, hl⟩ := List.forall_mem_cons.mp hl
      simp only [core, isString, inContext, current, List.head?_cons] at hes hd ha ⊢
      cases level with
      | lineComment | blockComment | regex => cases hle
      | bracket => exact absurd (.inr ⟨_, rfl⟩) hco
      | singleQuote | doubleQuote =>
        simp only [inQuotes, map_some, some.injEq, forall_eq']
        split_ifs <;> refine ⟨rfl, ⟨?_, ?_, ?_, ?_⟩, ?_⟩ <;>
          simp_all [leave, isString, current, Context.isSlashless]
      | templateQuote =>
        simp only [inTemplate, map_some, some.injEq, forall_eq']
        split_ifs <;> refine ⟨rfl, ⟨?_, ?_, ?_, ?_⟩, ?_⟩ <;>
          simp_all [leave, enter, isString, current, Context.isSlashless]

theorem Regular.isComment (h : s.Regular) : s.isComment = false := by
  cases hc : s.current with
  | none => simp [State.isComment, hc]
  | some level =>
    have hl := h.levels level (List.mem_of_mem_head? hc)
    refine isComment_of_current hc ?_ ?_ <;> (rintro rfl; cases hl)

theorem Quiet.push (hs : s.Quiet) (ht : t.Quiet) (hcor : t.core = s.core)
    (hc : c = '/' → s.isString) (h : s.push c = some next) :
    ∃ next', t.push c = some next' ∧ next.Quiet ∧ next'.Quiet ∧ next'.core = next.core := by
  have hsta : t.core.stack = s.core.stack := congrArg stack hcor
  obtain ⟨hco, hr⟩ := hs.inContext hc
  obtain ⟨hc', -⟩ := ht.inContext (by rwa [isString, current, show t.stack = s.stack from hsta])
  rw [push_eq_inContext hs.regexStart, hco] at h
  rw [push_eq_inContext ht.regexStart, hc', hcor]
  cases hn : s.core.inContext c with
  | none =>
    rw [hn] at h
    cases h
  | some n =>
    obtain ⟨hn', hst⟩ := hr n hn
    rw [hn] at h
    cases h
    -- outside of comments the character is remembered
    have hno : ∀ u : State, u.isComment = false → ∀ cs : List Char,
        (if n.isComment || u.isComment then cs else c :: cs).head? = some '/' → n.isString := by
      intro u hu cs hh
      rw [hn'.isComment, hu] at hh
      exact hst (some.inj hh)
    exact ⟨_, rfl, ⟨⟨hn'.levels, hn'.escaped, hn'.dollar, hn'.apart⟩, hs.regexStart,
      hno s hs.isComment s.history⟩, ⟨⟨hn'.levels, hn'.escaped, hn'.dollar, hn'.apart⟩,
      ht.regexStart, hno t ht.isComment t.history⟩, rfl⟩

/-! ## Texts -/

/-- Nothing is open, and nothing waits for the next character. -/
structure Idle (s : State) : Prop extends Quiet s where
  stack : s.stack = []

theorem idle_empty : Idle {} :=
  ⟨⟨⟨by simp, by rintro ⟨⟩, by rintro ⟨⟩, by rintro ⟨⟩⟩, rfl, by rintro ⟨⟩⟩, rfl⟩

theorem Idle.core (h : s.Idle) : s.core = {} := by
  have hs : s.isString = false := by simp [isString, current, h.stack]
  have hes : s.escaped = false := by
    simpa [hs] using h.escaped
  have hd : s.dollar = false := by simpa [h.stack] using h.dollar
  rw [State.core, h.stack, hes, hd]

/-- Where nothing is open, the text is read and leaves nothing open. -/
def Carries (cs : List Char) : Prop :=
  ∀ s : State, s.Idle → ∃ next, s.pushAll cs = some next ∧ next.Idle

theorem Carries.append {ds : List Char} (h : Carries cs) (h' : Carries ds) :
    Carries (cs ++ ds) := by
  intro s hs
  obtain ⟨mid, hm, hi⟩ := h s hs
  obtain ⟨next, hn, ha⟩ := h' mid hi
  exact ⟨next, by rw [pushAll_append, hm, bind_some, hn], ha⟩

theorem Quiet.pushAll_solid (hs : s.Quiet) (ht : t.Quiet) (hc : t.core = s.core)
    (h : s.isSolid cs) : ∃ next, t.pushAll cs = some next ∧ next.Idle := by
  induction cs generalizing s t with
  | nil =>
    have hst : t.core.stack = s.core.stack := congrArg stack hc
    exact ⟨t, rfl, ht, hst.trans (List.isEmpty_iff.mp h)⟩
  | cons c cs ih =>
    obtain ⟨next, hp, hsl, -, hr⟩ := exists_push_of_solid h
    obtain ⟨next', hp', hn, hn', hc'⟩ := hs.push ht hc hsl hp
    rw [pushAll_cons, hp']
    exact ih hn hn' hc' hr

theorem carries_solid (h : ({} : State).isSolid cs) : Carries cs :=
  fun _ hs => idle_empty.toQuiet.pushAll_solid hs.toQuiet hs.core h

theorem carries_balanced (h : Balanced cs) : Carries cs := by
  intro s hs
  have hsl : s.history.head? ≠ some '/' := fun hh => by
    simpa [isString, current, hs.stack] using hs.slash hh
  have hc := hs.core
  obtain ⟨t, ⟨next, hn, hsh⟩, hs', hd⟩ :=
    @Balanced.passes cs h s [] ⟨s.history, s.dollar⟩
      ⟨hs.stack, hs.regexStart, congrArg escaped hc, rfl, rfl⟩ rfl (by simp)
      (by simpa [Trail.afterSlash] using hsl) (congrArg dollar hc)
  refine ⟨next, hn, ⟨⟨?_, ?_, ?_, ?_⟩, hsh.regexStart, ?_⟩, hsh.stack⟩
  · simp [hsh.stack]
  · simp [hsh.escaped]
  · simp [hsh.dollar, hd]
  · simp [hsh.escaped]
  · rw [hsh.history]
    intro hh
    simp [Trail.afterSlash, hh] at hs'

theorem carries_chars (h : ∀ c ∈ cs, c ∉ delimiters) : Carries cs := by
  induction cs with
  | nil => exact carries_balanced .nil
  | cons c cs ih =>
    obtain ⟨hc, hcs⟩ := List.forall_mem_cons.mp h
    exact (carries_balanced (.char hc)).append (ih hcs)

end State
end Nesting
end PugTemplate
