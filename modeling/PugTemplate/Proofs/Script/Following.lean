import PugTemplate.Proofs.Script.Pieces
/-!
# Following the pieces of a script

The nesting of a script is found without reading it, so it may go wrong at a piece: a slash may be
taken for something else, a regular expression may have a slash inside of it, a block comment may
start with one, and a brace after a substitution is taken for another one. A text whose pieces avoid
this leaves open what its pieces leave open.
-/

namespace PugTemplate

open List Option
namespace Nesting

open Script (Piece Passage piece? codePiece? templatePiece? isCode levelsAfter readBlockComment
  readQuoted readPattern isLineBreak)

/-! ## Trails -/

/-- What is remembered between pieces. -/
structure Trail where
  /-- The characters outside of comments, the last one first. -/
  history : List Char := []
  /-- A brace in a template is taken for the start of a substitution. -/
  dollar : Bool := false
  deriving DecidableEq, Repr

/-- There is no slash in the text of a regular expression but escaped ones. -/
def isSlashless : List Char → Bool
  | '\\' :: _ :: cs => isSlashless cs
  | c :: cs => c != '/' && isSlashless cs
  | [] => true

namespace Trail

/-- The last character was a slash, which may make a comment of the next one. -/
def afterSlash (t : Trail) : Bool := t.history.head? == some '/'

/-- The trail after characters outside of comments. -/
def note (t : Trail) (cs : List Char) : Trail := { t with history := cs.reverse ++ t.history }

def after (t : Trail) : Piece → Trail
  | .lineComment _ _ => t
  | .blockComment _ => t
  | .letter c => { t.note [c] with dollar := c == '$' }
  | .escape c => { t.note ['\\', c] with dollar := false }
  | .substitution => { t.note ['$', '{'] with dollar := true }
  | .mark c => t.note [c]
  | .string quote body => t.note (quote :: body ++ [quote])
  | .regex body => t.note ('/' :: body ++ ['/'])

def follows (t : Trail) : Piece → Bool
  | .mark c =>
    if c == '/' then !t.afterSlash && !startsRegex t.history else !(c == '*' && t.afterSlash)
  | .lineComment _ stop => !t.afterSlash && stop == some '\n'
  | .blockComment body => !t.afterSlash && body.head? != some '/'
  | .string _ _ => true
  | .regex body =>
    !t.afterSlash && startsRegex t.history && isSlashless body && !body.isEmpty &&
      body.head? != some '*'
  | .letter c => c != '\\' && !(c == '{' && t.dollar)
  | .escape _ => true
  | .substitution => true

@[simp] theorem note_nil (t : Trail) : t.note [] = t := rfl

@[simp] theorem note_note (t : Trail) (cs ds : List Char) :
    (t.note cs).note ds = t.note (cs ++ ds) := by
  simp [note]

def followsAll (t : Trail) : List Piece → Bool
  | [] => true
  | p :: ps => t.follows p && (t.after p).followsAll ps

def afterAll (t : Trail) (ps : List Piece) : Trail := ps.foldl after t

end Trail

namespace State

/-! ## Several characters -/

/-- The nesting after several characters, or nothing if one is refused. -/
def pushAll (s : State) (cs : List Char) : Option State := cs.foldlM push s

@[simp] theorem pushAll_nil (s : State) : s.pushAll [] = some s := rfl

theorem pushAll_cons (s : State) (c : Char) (cs : List Char) :
    s.pushAll (c :: cs) = (s.push c).bind fun next => next.pushAll cs := rfl

theorem pushAll_append (s : State) (cs ds : List Char) :
    s.pushAll (cs ++ ds) = (s.pushAll cs).bind fun next => next.pushAll ds :=
  foldlM_append

theorem scanFrom_eq_ok_iff {s t : State} {before cs : List Char} :
    scanFrom s before cs = .ok t ↔ s.pushAll cs = some t := by
  induction cs generalizing s before with
  | nil =>
    constructor <;> (intro h; cases h; rfl)
  | cons c cs ih =>
    rw [scanFrom, pushAll_cons]
    cases s.push c with
    | none => constructor <;> (intro h; cases h)
    | some next => exact ih

/-! ## What a state shows -/

/-- The levels, the flag for an escape and the trail of a state, no slash of which waits for its next
character. -/
structure Shows (s : State) (levels : List Context) (escaped : Bool) (t : Trail) : Prop where
  stack : s.stack = levels
  regexStart : s.regexStart = false
  escaped : s.escaped = escaped
  history : s.history = t.history
  dollar : s.dollar = t.dollar

/-- The characters lead from a state to one that shows this. -/
def Leads (s : State) (cs : List Char) (levels : List Context) (escaped : Bool) (t : Trail) : Prop :=
  ∃ next, s.pushAll cs = some next ∧ next.Shows levels escaped t

variable {levels after : List Context} {t : Trail} {escaped' escaped : Bool} {s next : State}
  {cs rest : List Char} {c : Char} {level : Context}

theorem Leads.trans {t' : Trail} (h : s.Leads cs levels escaped t) (ds : List Char)
    (h' : ∀ next : State, next.Shows levels escaped t → next.Leads ds after escaped' t') :
    s.Leads (cs ++ ds) after escaped' t' := by
  obtain ⟨mid, hm, hsh⟩ := h
  obtain ⟨next, hn, hs'⟩ := h' mid hsh
  exact ⟨next, by rw [pushAll_append, hm, bind_some, hn], hs'⟩

theorem Shows.leads (h : s.Shows levels escaped t) : s.Leads [] levels escaped t := ⟨s, rfl, h⟩

theorem push_eq_inContext (h : s.regexStart = false) (c : Char) :
    s.push c = (s.inContext c).map fun next =>
      { next with
        taken := c :: s.taken
        history := if next.isComment || s.isComment then next.history else c :: next.history
        last := some c } := by
  unfold push
  rw [settleRegex_of_false h]

theorem leads_of_inContext (hst : s.regexStart = false) (hn : s.inContext c = some next)
    (hsta : next.stack = levels) (hs' : next.regexStart = false)
    (hes : next.escaped = escaped) (hd : next.dollar = t.dollar)
    (hh : (if next.isComment || s.isComment then next.history else c :: next.history) = t.history) :
    s.Leads [c] levels escaped t := by
  refine ⟨_, by rw [pushAll_cons, push_eq_inContext hst, hn]; rfl, ?_⟩
  exact ⟨hsta, hs', hes, hh, hd⟩

theorem leads_noted {dollar : Bool} (hs : s.Shows levels escaped t) (hp : s.isComment = false)
    (hn : s.inContext c = some next) (hst : next.stack = after)
    (hp' : next.isComment = false) (hsta : next.regexStart = s.regexStart)
    (hes : next.escaped = escaped') (hh : next.history = s.history)
    (hd : next.dollar = dollar) :
    s.Leads [c] after escaped' { t.note [c] with dollar := dollar } := by
  refine leads_of_inContext hs.regexStart hn hst (hsta.trans hs.regexStart) hes hd ?_
  rw [hp, hp', hh, hs.history]
  rfl

/-! ## Strings and regular expressions -/

/-- The level of a string or a regular expression, with the character that ends it. -/
inductive Quoted : Context → Char → Prop where
  | single : Quoted .singleQuote '\''
  | double : Quoted .doubleQuote '"'
  | regex : Quoted .regex '/'

theorem inContext_quoted {terminator : Char} (hq : Quoted level terminator)
    (hc : s.current = some level) (c : Char) :
    s.inContext c = some (s.inQuotes terminator c) := by
  unfold inContext
  rw [hc]
  cases hq <;> rfl

theorem isComment_of_enclosing (hst : s.stack = levels)
    (hlevels : ∀ level ∈ levels, level.isEnclosing) : s.isComment = false := by
  unfold isComment current
  rw [hst]
  cases levels with
  | nil => rfl
  | cons level levels =>
    have hl := hlevels level mem_cons_self
    cases level <;> first | rfl | cases hl

theorem isComment_of_current (hc : s.current = some level) (hl : level ≠ .lineComment)
    (hb : level ≠ .blockComment) : s.isComment = false := by
  unfold isComment
  rw [hc]
  simp [hl, hb]

section quoted

variable {s : State} {level : Context} {terminator : Char} {levels : List Context} {t : Trail}
  {c : Char} {body rest cs : List Char}

theorem Quoted.isComment (hq : Quoted level terminator) (hc : s.current = some level) :
    s.isComment = false := by
  refine isComment_of_current hc ?_ ?_ <;> (rintro rfl; cases hq)

theorem leads_quoted_inside {escaped : Bool} (hq : Quoted level terminator)
    (hs : s.Shows (level :: levels) escaped t) (hc : (c == terminator && !escaped) = false) :
    s.Leads [c] (level :: levels) (c == '\\' && !escaped) (t.note [c]) := by
  have hcu : s.current = some level := by rw [current, hs.stack]; rfl
  have hn : s.inContext c = some { s with escaped := c == '\\' && !escaped } := by
    rw [inContext_quoted hq hcu, inQuotes, hs.escaped, hc]
    rfl
  have hp := hq.isComment hcu
  exact leads_noted hs hp hn hs.stack hp rfl rfl rfl hs.dollar

theorem leads_quoted_end (hq : Quoted level terminator)
    (hs : s.Shows (level :: levels) false t) (hlevels : ∀ outer ∈ levels, outer.isEnclosing) :
    s.Leads [terminator] levels false (t.note [terminator]) := by
  have hc : s.current = some level := by rw [current, hs.stack]; rfl
  have hn : s.inContext terminator = some s.leave := by
    rw [inContext_quoted hq hc, inQuotes, hs.escaped]
    simp
  have hl : s.leave.stack = levels := by rw [leave, hs.stack]; rfl
  exact leads_noted hs (hq.isComment hc) hn hl
    (isComment_of_enclosing hl hlevels) rfl hs.escaped rfl hs.dollar

theorem Quoted.ne_of_break (hq : Quoted level terminator) :
    '\n' ≠ terminator ∧ '\\' ≠ terminator := by
  cases hq <;> decide

theorem leads_quoted_escape (hq : Quoted level terminator)
    (hs : s.Shows (level :: levels) false t) (c : Char) :
    s.Leads ['\\', c] (level :: levels) false (t.note ['\\', c]) := by
  have hb : ('\\' == terminator && !false) = false := by
    simpa using hq.ne_of_break.2
  refine (leads_quoted_inside hq hs hb).trans [c] ?_
  intro next hn
  have hi := leads_quoted_inside hq hn (c := c) (by simp)
  simpa using hi

theorem leads_quoted_char (hq : Quoted level terminator)
    (hs : s.Shows (level :: levels) false t) (hen : c ≠ terminator) (hb : c ≠ '\\') :
    s.Leads [c] (level :: levels) false (t.note [c]) := by
  have hi := leads_quoted_inside hq hs (c := c) (by simp [hen])
  rwa [show (c == '\\' && !false) = false by simp [hb]] at hi

theorem leads_readQuoted (hq : Quoted level terminator)
    (hlevels : ∀ outer ∈ levels, outer.isEnclosing)
    (h : readQuoted terminator cs = some (body, rest)) (hs : s.Shows (level :: levels) false t) :
    s.Leads (body ++ [terminator]) levels false (t.note (body ++ [terminator])) := by
  fun_induction readQuoted terminator cs generalizing body s t with
  | case1 => cases h
  | case2 c cs ih =>
    obtain ⟨⟨found, after⟩, hfound, heq⟩ := Option.map_eq_some_iff.mp h
    cases heq
    refine (leads_quoted_escape hq hs c).trans (found ++ [terminator]) ?_
    intro next hnext
    simpa using ih hfound hnext
  | case3 c cs _ hend =>
    cases h
    exact leads_quoted_end hq hs hlevels
  | case4 c cs hescape hend ih =>
    obtain ⟨⟨found, after⟩, hfound, heq⟩ := Option.map_eq_some_iff.mp h
    cases heq
    -- a backslash with nothing after it does not end
    have hbackslash : c ≠ '\\' := by
      rintro rfl
      cases cs with
      | nil => cases hfound
      | cons d ds => exact hescape d ds rfl rfl
    refine (leads_quoted_char hq hs (by simpa using hend) hbackslash).trans (found ++ [terminator]) ?_
    intro next hnext
    simpa using ih hfound hnext

theorem leads_readPattern (hlevels : ∀ outer ∈ levels, outer.isEnclosing)
    {inClass : Bool} (h : readPattern inClass cs = some (body, rest))
    (hsl : isSlashless body) (hs : s.Shows (.regex :: levels) false t) :
    s.Leads (body ++ ['/']) levels false (t.note (body ++ ['/'])) := by
  fun_induction readPattern inClass cs generalizing body s t with
  | case1 => cases h
  | case2 inClass c cs ih =>
    obtain ⟨⟨found, after⟩, hfound, heq⟩ := Option.map_eq_some_iff.mp h
    cases heq
    refine (leads_quoted_escape .regex hs c).trans (found ++ ['/']) ?_
    intro next hnext
    simpa using ih hfound hsl hnext
  | case3 inClass c cs _ hend =>
    cases h
    exact leads_quoted_end .regex hs hlevels
  | case4 inClass c cs hescape hend inside =>
    rename_i ih
    obtain ⟨⟨found, after⟩, hfound, heq⟩ := Option.map_eq_some_iff.mp h
    cases heq
    have hbackslash : c ≠ '\\' := by
      rintro rfl
      cases cs with
      | nil => cases hfound
      | cons d ds => exact hescape d ds rfl rfl
    have hslash : c ≠ '/' ∧ isSlashless found := by
      rw [isSlashless] at hsl
      · simpa using hsl
      · intro _ _ hc
        exact absurd hc hbackslash
    refine (leads_quoted_char .regex hs hslash.1 hbackslash).trans (found ++ ['/']) ?_
    intro next hnext
    simpa using ih hfound hslash.2 hnext

end quoted

/-! ## Comments -/

section comments

variable {s : State} {levels : List Context} {t : Trail}

theorem leads_lineChar (hs : s.Shows (.lineComment :: levels) false t) (c : Char) :
    s.Leads [c] (if c == '\n' then levels else .lineComment :: levels) false t := by
  have hc : s.current = some .lineComment := by rw [current, hs.stack]; rfl
  have hco : s.isComment := by unfold isComment; rw [hc]; rfl
  have hn : s.inContext c = some (if c == '\n' then s.leave else s) := by
    unfold inContext
    rw [hc]
  cases hen : c == '\n' with
  | true =>
    rw [hen] at hn
    refine leads_of_inContext hs.regexStart hn ?_ hs.regexStart hs.escaped hs.dollar ?_
    · show s.stack.tail = levels
      rw [hs.stack]
      rfl
    · rw [hco, Bool.or_true]
      exact hs.history
  | false =>
    rw [hen] at hn
    refine leads_of_inContext hs.regexStart hn hs.stack hs.regexStart hs.escaped hs.dollar ?_
    rw [hco, Bool.or_true]
    exact hs.history

theorem leads_lineBody {body : List Char} (hb : '\n' ∉ body)
    (hs : s.Shows (.lineComment :: levels) false t) :
    s.Leads body (.lineComment :: levels) false t := by
  induction body generalizing s with
  | nil => exact hs.leads
  | cons c cs ih =>
    simp only [mem_cons, not_or] at hb
    have hp := leads_lineChar hs c
    rw [if_neg (by simpa using fun heq => hb.1 heq.symm)] at hp
    exact hp.trans _ fun next hn => ih hb.2 hn

theorem push_blockComment (hs : s.Shows (.blockComment :: levels) false t) (c : Char) :
    ∃ next, s.push c = some next ∧ next.last = some c ∧
      next.Shows (if s.last == some '*' && c == '/' then levels else .blockComment :: levels) false
        t := by
  have hc : s.current = some .blockComment := by rw [current, hs.stack]; rfl
  have hco : s.isComment := by unfold isComment; rw [hc]; rfl
  have hn : s.inContext c = some (if s.last == some '*' && c == '/' then s.leave else s) := by
    unfold inContext
    rw [hc]
  refine ⟨_, by rw [push_eq_inContext hs.regexStart, hn, map_some, hco, Bool.or_true], rfl, ?_⟩
  split
  · refine ⟨?_, hs.regexStart, hs.escaped, hs.history, hs.dollar⟩
    show s.stack.tail = levels
    rw [hs.stack]
    rfl
  · exact ⟨hs.stack, hs.regexStart, hs.escaped, hs.history, hs.dollar⟩

/-- The text of a block comment, which is left at the first star and slash that follow each other.
-/
theorem leads_blockBody {cs body rest : List Char} (h : readBlockComment cs = some (body, rest))
    (hs : s.Shows (.blockComment :: levels) false t)
    (hla : ¬(s.last = some '*' ∧ cs.head? = some '/')) :
    s.Leads (body ++ ['*', '/']) levels false t := by
  fun_induction readBlockComment cs generalizing body s with
  | case1 cs =>
    cases h
    obtain ⟨star, hsta, hst, hsh⟩ := push_blockComment hs '*'
    rw [if_neg (by simp)] at hsh
    obtain ⟨next, hne, -, hs'⟩ := push_blockComment hsh '/'
    rw [hst] at hs'
    refine ⟨next, ?_, hs'⟩
    rw [nil_append, pushAll_cons, hsta, bind_some, pushAll_cons, hne]
    rfl
  | case2 c cs hp ih =>
    obtain ⟨⟨found, after⟩, hf, heq⟩ := Option.map_eq_some_iff.mp h
    cases heq
    obtain ⟨next, hne, hn, hsh⟩ := push_blockComment hs c
    have hstay : (s.last == some '*' && c == '/') = false := by
      rw [Bool.eq_false_iff]
      intro hl
      simp only [Bool.and_eq_true, beq_iff_eq] at hl
      exact hla ⟨hl.1, by rw [hl.2]; rfl⟩
    rw [hstay] at hsh
    obtain ⟨last, hl', hs'⟩ := ih hf hsh (by
      rw [hn]
      rintro ⟨hsta, hsl⟩
      obtain ⟨ds, rfl⟩ := List.head?_eq_some_iff.mp hsl
      exact hp ds (some.inj hsta) rfl)
    refine ⟨last, ?_, hs'⟩
    rw [cons_append, pushAll_cons, hne]
    exact hl'
  | case3 => cases h

end comments

/-! ## Code -/

theorem pushAll_of_regexStart (c : Char) (cs : List Char) (hc : c ≠ '/' ∧ c ≠ '*') :
    s.pushAll (c :: cs) = { s with regexStart := false }.pushAll (c :: cs) := by
  rw [pushAll_cons, pushAll_cons]
  have hpu : s.push c = { s with regexStart := false }.push c := by
    unfold push settleRegex
    cases hst : s.regexStart with
    | false => simp only [← hst]
    | true =>
      have hp : (c == '/' || c == '*') = false := by simp [hc]
      simp only [if_true, hp]
      rfl
  rw [hpu]

theorem inCode_of_enclosing (hst : s.stack = levels)
    (hlevels : ∀ level ∈ levels, level.isEnclosing) (hcode : isCode levels) :
    s.InCode := by
  unfold InCode current
  rw [hst]
  cases levels with
  | nil => exact Or.inl rfl
  | cons level levels =>
    have hl := hlevels level mem_cons_self
    cases level with
    | bracket closer => exact Or.inr ⟨closer, rfl⟩
    | templateQuote => cases hcode
    | _ => cases hl

section code

variable {s : State} {levels after : List Context} {t : Trail}

variable {c quote : Char} {level : Context} {body rest cs : List Char}

/-- A character of code that opens no comment, string or regular expression. -/
theorem inCode_of_levelsAfter (hs : s.Shows levels false t)
    (ha : levelsAfter levels c = some after) (hq : c ≠ '\'' ∧ c ≠ '"')
    (hf : t.follows (.mark c)) : s.inCode c = some { s with stack := after } := by
  obtain rfl := hs.stack
  have hsl : t.afterSlash = (s.history.head? == some '/') := by rw [hs.history]; rfl
  by_cases ho : c = '(' ∨ c = '[' ∨ c = '{' ∨ c = '\x60'
  · rcases ho with rfl | rfl | rfl | rfl <;> (cases ha; rfl)
  by_cases hcl : isCloser c
  · have heq : s.inCode c = if s.current == some (.bracket c) then some s.leave else none := by
      have hca := hcl
      simp only [isCloser, Bool.or_eq_true, beq_iff_eq] at hca
      rcases hca with (rfl | rfl) | rfl <;> rfl
    simp only [not_or] at ho
    simp only [levelsAfter, beq_iff_eq, ho, hcl, if_false, if_true] at ha
    split at ha
    · next hfi =>
      cases ha
      rw [heq, current, hfi, beq_self_eq_true]
      rfl
    · cases ha
  have hsa : after = s.stack := by
    simp only [not_or] at ho
    simp only [levelsAfter, beq_iff_eq, ho, hcl, if_false] at ha
    exact (some.inj ha).symm
  subst hsa
  by_cases hc : c = '/'
  · subst hc
    have hg : t.afterSlash = false ∧ startsRegex s.history = false := by
      rw [hs.history]
      simpa [Trail.follows] using hf
    show (if s.history.head? == some '/' then _ else if startsRegex s.history then _ else some s) = _
    rw [← hsl, hg.1, hg.2]
    rfl
  by_cases hst : c = '*'
  · subst hst
    have hg : t.afterSlash = false := by simpa [Trail.follows] using hf
    show (if s.history.head? == some '/' then _ else some s) = _
    rw [← hsl, hg]
    rfl
  simp only [not_or] at ho
  simp only [isCloser, Bool.or_eq_true, beq_iff_eq, not_or] at hcl
  simp [inCode, ho, hcl, hc, hst, hq]

theorem isEnclosing_levelsAfter (hlevels : ∀ level ∈ levels, level.isEnclosing)
    (ha : levelsAfter levels c = some after) : ∀ level ∈ after, level.isEnclosing := by
  unfold levelsAfter at ha
  intro level hm
  repeat' split at ha
  all_goals cases ha
  all_goals first
    | exact hlevels level hm
    | exact hlevels level (mem_of_mem_tail hm)
    | (rcases mem_cons.mp hm with rfl | hm
       · rfl
       · exact hlevels level hm)

variable (hs : s.Shows levels false t) (hcode : isCode levels = true)
  (hlevels : ∀ level ∈ levels, level.isEnclosing = true)
include hs hcode hlevels

theorem leads_mark (ha : levelsAfter levels c = some after) (hq : c ≠ '\'' ∧ c ≠ '"')
    (hf : t.follows (.mark c)) : s.Leads [c] after false (t.note [c]) := by
  have hi := inCode_of_enclosing hs.stack hlevels hcode
  have hn : s.inContext c = some { s with stack := after } := by
    rw [inContext_of_inCode hi, inCode_of_levelsAfter hs ha hq hf]
  exact leads_noted hs (isComment_of_enclosing hs.stack hlevels) hn rfl
    (isComment_of_enclosing rfl (isEnclosing_levelsAfter hlevels ha)) rfl hs.escaped rfl hs.dollar

theorem leads_quote (hq : Quoted level quote) (hr : level ≠ .regex) :
    s.Leads [quote] (level :: levels) false (t.note [quote]) := by
  have hi := inCode_of_enclosing hs.stack hlevels hcode
  have hn : s.inContext quote = some (s.enter level) := by
    rw [inContext_of_inCode hi]
    cases hq with
    | single => rfl
    | double => rfl
    | regex => exact absurd rfl hr
  have hst : (s.enter level).stack = level :: levels := by rw [enter, hs.stack]
  exact leads_noted hs (isComment_of_enclosing hs.stack hlevels) hn hst
    (hq.isComment rfl) rfl hs.escaped rfl hs.dollar

theorem leads_string (hqu : quote = '"' ∨ quote = '\'')
    (h : readQuoted quote cs = some (body, rest)) :
    s.Leads (quote :: body ++ [quote]) levels false (t.note (quote :: body ++ [quote])) := by
  obtain ⟨level, hq, hr⟩ : ∃ level, Quoted level quote ∧ level ≠ .regex := by
    rcases hqu with rfl | rfl
    · exact ⟨.doubleQuote, .double, by rintro ⟨⟩⟩
    · exact ⟨.singleQuote, .single, by rintro ⟨⟩⟩
  refine (leads_quote hs hcode hlevels hq hr).trans (body ++ [quote]) ?_
  intro next hn
  simpa using leads_readQuoted hq hlevels h hn

/-! ## Slashes -/

theorem push_regex (hsl : t.afterSlash = false) (hr : startsRegex t.history) :
    ∃ next, s.push '/' = some next ∧ next.regexStart ∧
      { next with regexStart := false }.Shows (.regex :: levels) false (t.note ['/']) := by
  have hi := inCode_of_enclosing hs.stack hlevels hcode
  have hn : s.inContext '/' = some { s.enter .regex with regexStart := true } := by
    rw [inContext_of_inCode hi]
    show (if s.history.head? == some '/' then _ else if startsRegex s.history then _ else some s) = _
    rw [show (s.history.head? == some '/') = false by rw [hs.history]; exact hsl, hs.history, hr]
    rfl
  have hp := isComment_of_enclosing hs.stack hlevels
  rw [push_eq_inContext hs.regexStart, hn]
  refine ⟨_, rfl, rfl, ?_, rfl, hs.escaped, ?_, hs.dollar⟩
  · show Context.regex :: s.stack = _
    rw [hs.stack]
  · show (if _ || s.isComment then s.history else '/' :: s.history) = _
    rw [hp, hs.history]
    rfl

theorem leads_regex (h : readPattern false cs = some (body, rest))
    (hf : t.follows (.regex body)) :
    s.Leads ('/' :: body ++ ['/']) levels false (t.note ('/' :: body ++ ['/'])) := by
  simp only [Trail.follows, Bool.and_eq_true, Bool.not_eq_true', bne_iff_ne] at hf
  obtain ⟨⟨⟨⟨hsla, hr⟩, hsl⟩, hempty⟩, hstar⟩ := hf
  obtain ⟨first, hp, -, hsh⟩ := push_regex hs hcode hlevels hsla hr
  obtain ⟨last, hl, hs'⟩ := leads_readPattern hlevels h hsl hsh
  refine ⟨last, ?_, by simpa using hs'⟩
  rw [cons_append, pushAll_cons, hp, bind_some]
  -- the first character of the body settles that the slash starts no comment
  cases body with
  | nil => cases hempty
  | cons c ds =>
    have hc : c ≠ '/' ∧ c ≠ '*' := by
      refine ⟨?_, fun heq => hstar (by rw [heq]; rfl)⟩
      rintro rfl
      simp [isSlashless] at hsl
    rw [cons_append, pushAll_of_regexStart c _ hc]
    exact hl

theorem push_slash (hsl : t.afterSlash = false) (hc : c = '/' ∨ c = '*') :
    ∃ next, s.push '/' = some next ∧ (next.settleRegex c).Shows levels false (t.note ['/']) := by
  by_cases hr : startsRegex t.history
  · obtain ⟨next, hp, hst, hsh⟩ := push_regex hs hcode hlevels hsl hr
    have hse : next.settleRegex c = { next.leave with regexStart := false } := by
      have hco : (c == '/' || c == '*') = true := by simpa using hc
      simp only [settleRegex, hst, hco, if_true]
    refine ⟨next, hp, ?_⟩
    rw [hse]
    refine ⟨?_, rfl, hsh.escaped, hsh.history, hsh.dollar⟩
    show next.stack.tail = levels
    rw [show next.stack = .regex :: levels from hsh.stack]
    rfl
  · have hf : t.follows (.mark '/') := by simp [Trail.follows, hsl, hr]
    have ha : levelsAfter levels '/' = some levels := rfl
    obtain ⟨next, hp, hsh⟩ := leads_mark hs hcode hlevels ha (by decide) hf
    obtain ⟨found, hfo, heq⟩ := bind_eq_some_iff.mp hp
    cases heq
    exact ⟨next, hfo, by rw [settleRegex_of_false hsh.regexStart]; exact hsh⟩

theorem leads_commentStart (hsl : t.afterSlash = false)
    (hc : c = '/' ∧ level = .lineComment ∨ c = '*' ∧ level = .blockComment) :
    ∃ next, s.pushAll ['/', c] = some next ∧ next.Shows (level :: levels) false t ∧
      next.last = some c := by
  obtain ⟨first, hf, hsh⟩ := push_slash hs hcode hlevels hsl (hc.imp And.left And.left)
  have hi := inCode_of_enclosing hsh.stack hlevels hcode
  have hh : (first.settleRegex c).history = '/' :: t.history := by rw [hsh.history]; rfl
  have hn : (first.settleRegex c).inContext c =
      some { (first.settleRegex c).enter level with history := t.history } := by
    rw [inContext_of_inCode hi]
    rcases hc with ⟨rfl, rfl⟩ | ⟨rfl, rfl⟩
    · show (if (first.settleRegex '/').history.head? == some '/' then _ else _) = _
      rw [hh]
      rfl
    · show (if (first.settleRegex '*').history.head? == some '/' then _ else _) = _
      rw [hh]
      rfl
  have hco :
      ({ (first.settleRegex c).enter level with history := t.history } : State).isComment := by
    rcases hc with ⟨-, rfl⟩ | ⟨-, rfl⟩ <;> rfl
  have hp : first.push c = some { (first.settleRegex c).enter level with
      history := t.history, taken := c :: first.taken, last := some c } := by
    unfold push
    rw [hn, map_some, hco]
    rfl
  rw [pushAll_cons, hf, bind_some, pushAll_cons, hp]
  refine ⟨_, rfl, ⟨?_, hsh.regexStart, hsh.escaped, rfl, hsh.dollar⟩, rfl⟩
  show level :: (first.settleRegex c).stack = _
  rw [hsh.stack]

theorem leads_openComment (hb : '\n' ∉ body) (hsl : t.afterSlash = false) :
    s.Leads ('/' :: '/' :: body) (.lineComment :: levels) false t := by
  obtain ⟨start, hst, hsh, -⟩ :=
    leads_commentStart hs hcode hlevels hsl (Or.inl ⟨rfl, rfl⟩)
  have ho : s.Leads ['/', '/'] (.lineComment :: levels) false t := ⟨start, hst, hsh⟩
  exact ho.trans body fun next hn => leads_lineBody hb hn

theorem leads_lineComment (hb : '\n' ∉ body) (hsl : t.afterSlash = false) :
    s.Leads ('/' :: '/' :: body ++ ['\n']) levels false t :=
  (leads_openComment hs hcode hlevels hb hsl).trans _ fun _ hn => leads_lineChar hn '\n'

theorem leads_blockComment (h : readBlockComment cs = some (body, rest))
    (hsl : t.afterSlash = false) (hb : body.head? ≠ some '/') :
    s.Leads ('/' :: '*' :: body ++ ['*', '/']) levels false t := by
  obtain ⟨start, hst, hsh, hl⟩ :=
    leads_commentStart hs hcode hlevels hsl (Or.inr ⟨rfl, rfl⟩)
  obtain ⟨next, hn, hs'⟩ := leads_blockBody h hsh (by
    rintro ⟨-, hf⟩
    rw [Script.readBlockComment_cut h] at hf
    cases body with
    | nil => cases hf
    | cons c cs => exact hb hf)
  refine ⟨next, ?_, hs'⟩
  rw [show '/' :: '*' :: body ++ ['*', '/'] = ['/', '*'] ++ (body ++ ['*', '/']) from rfl,
    pushAll_append, hst, bind_some, hn]

end code

/-! ## Templates -/

section templates

variable {s : State} {levels : List Context} {t : Trail}

theorem leads_templateChar {c : Char} {after : List Context} {escaped : Bool} {next : State}
    {dollar : Bool} (hs : s.Shows (.templateQuote :: levels) escaped t)
    (hn : s.inTemplate c = next) (hst : next.stack = after)
    (ha : ∀ level ∈ after, level.isEnclosing) (hsta : next.regexStart = s.regexStart)
    (hh : next.history = s.history) (hd : next.dollar = dollar) :
    s.Leads [c] after next.escaped { t.note [c] with dollar := dollar } := by
  have hc : s.current = some .templateQuote := by rw [current, hs.stack]; rfl
  have hco : s.inContext c = some next := by
    unfold inContext
    rw [hc, ← hn]
  exact leads_noted hs (isComment_of_current hc (by rintro ⟨⟩) (by rintro ⟨⟩)) hco hst
    (isComment_of_enclosing hst ha) hsta rfl hh hd

theorem leads_letter {c : Char} (hs : s.Shows (.templateQuote :: levels) false t)
    (hlevels : ∀ level ∈ levels, level.isEnclosing)
    (hf : t.follows (.letter c)) :
    s.Leads [c] (if c == '\x60' then levels else .templateQuote :: levels) false
      (t.after (.letter c)) := by
  have hen : ∀ level ∈ Context.templateQuote :: levels, level.isEnclosing :=
    forall_mem_cons.mpr ⟨rfl, hlevels⟩
  have hle : s.leave.stack = levels := by rw [leave, hs.stack]; rfl
  simp only [Trail.follows, Bool.and_eq_true, bne_iff_ne, ne_eq, Bool.not_eq_true'] at hf
  obtain ⟨hba, hb⟩ := hf
  by_cases hend : c = '\x60'
  · subst hend
    have hn : s.inTemplate '\x60' = { s.leave with dollar := false } := by
      rw [inTemplate, hs.escaped]
      rfl
    have hl := leads_templateChar hs hn hle hlevels rfl rfl rfl
    rwa [show ({ s.leave with dollar := false } : State).escaped = false from hs.escaped] at hl
  by_cases hd : c = '$'
  · subst hd
    have hn : s.inTemplate '$' = { s with dollar := true } := by
      rw [inTemplate, hs.escaped]
      rfl
    have hl := leads_templateChar hs hn hs.stack hen rfl rfl rfl
    rwa [show ({ s with dollar := true } : State).escaped = false from hs.escaped] at hl
  have hn : s.inTemplate c = { s with escaped := false, dollar := false } := by
    rw [inTemplate, hs.dollar, hb]
    simp [hend, hba, hd]
  have hl := leads_templateChar hs hn hs.stack hen rfl rfl rfl
  rw [if_neg (by simpa using hend)]
  rwa [Trail.after, show (c == '$') = false by simpa using hd]

theorem leads_escape (hs : s.Shows (.templateQuote :: levels) false t)
    (hlevels : ∀ level ∈ levels, level.isEnclosing) (c : Char) :
    s.Leads ['\\', c] (.templateQuote :: levels) false (t.after (.escape c)) := by
  have hen : ∀ level ∈ Context.templateQuote :: levels, level.isEnclosing :=
    forall_mem_cons.mpr ⟨rfl, hlevels⟩
  have hb : s.inTemplate '\\' = { s with escaped := true, dollar := false } := by
    rw [inTemplate, hs.escaped]
    rfl
  refine (leads_templateChar hs hb hs.stack hen rfl rfl rfl).trans [c] ?_
  intro next hsh
  have hn : next.inTemplate c = { next with escaped := false, dollar := false } := by
    rw [inTemplate, hsh.escaped, hsh.dollar]
    simp
  exact leads_templateChar hsh hn hsh.stack hen rfl rfl rfl

theorem leads_substitution (hs : s.Shows (.templateQuote :: levels) false t)
    (hlevels : ∀ level ∈ levels, level.isEnclosing) :
    s.Leads ['$', '{'] (.bracket '}' :: .templateQuote :: levels) false (t.after .substitution) := by
  have hen : ∀ level ∈ Context.templateQuote :: levels, level.isEnclosing :=
    forall_mem_cons.mpr ⟨rfl, hlevels⟩
  have hsi : s.inTemplate '$' = { s with dollar := true } := by
    rw [inTemplate, hs.escaped]
    rfl
  refine (leads_templateChar hs hsi hs.stack hen rfl rfl rfl).trans ['{'] ?_
  intro next hsh
  have hes : next.escaped = false := hsh.escaped.trans hs.escaped
  have hn : next.inTemplate '{' = next.enter (.bracket '}') := by
    rw [inTemplate, hsh.dollar]
    rfl
  have hst : (next.enter (.bracket '}')).stack = .bracket '}' :: .templateQuote :: levels := by
    rw [enter, hsh.stack]
  have hd : (next.enter (.bracket '}')).dollar := hsh.dollar
  have hl := leads_templateChar hsh hn hst (forall_mem_cons.mpr ⟨rfl, hen⟩)
    rfl rfl hd
  rwa [show (next.enter (.bracket '}')).escaped = false from hes] at hl

end templates

/-! ## Passages -/

theorem leads_piece {p : Piece} (hs : s.Shows levels false t)
    (hlevels : ∀ level ∈ levels, level.isEnclosing)
    (hp : piece? p.isRegex levels cs = some (p, after, rest)) (hf : t.follows p) :
    s.Leads p.chars after false (t.after p) ∧ ∀ level ∈ after, level.isEnclosing := by
  cases hcode : isCode levels with
  | true =>
    rw [Script.piece?_code hcode] at hp
    rcases Script.codePiece?_cases hp with ⟨body, -, -, hread, rfl, rfl⟩ | ⟨more, -, -, hmore, rfl⟩ |
      ⟨body, -, -, hread, rfl, rfl⟩ | ⟨quote, body, hquote, -, hread, rfl, rfl⟩ |
      ⟨c, -, rfl, hquote, -, hafter⟩
    · exact ⟨leads_regex hs hcode hlevels hread hf, hlevels⟩
    · cases hmore
      refine ⟨?_, hlevels⟩
      simp only [Trail.follows, Bool.and_eq_true, Bool.not_eq_true', beq_iff_eq] at hf
      have hbody : '\n' ∉ more.takeWhile fun c => !isLineBreak c := by
        intro hmem
        exact absurd (all_eq_true.mp all_takeWhile _ hmem) (by decide)
      show s.Leads ('/' :: '/' :: _ ++ (more.dropWhile fun c => !isLineBreak c).head?.toList) after
        false t
      rw [hf.2]
      exact leads_lineComment hs hcode hlevels hbody hf.1
    · refine ⟨?_, hlevels⟩
      simp only [Trail.follows, Bool.and_eq_true, Bool.not_eq_true', bne_iff_ne, ne_eq] at hf
      exact leads_blockComment hs hcode hlevels hread hf.1 hf.2
    · exact ⟨leads_string hs hcode hlevels (by simpa using hquote) hread, hlevels⟩
    · simp only [Bool.or_eq_false_iff, beq_eq_false_iff_ne] at hquote
      exact ⟨leads_mark hs hcode hlevels hafter hquote.symm hf, isEnclosing_levelsAfter hlevels hafter⟩
  | false =>
    obtain ⟨outer, rfl⟩ : ∃ outer, levels = .templateQuote :: outer := by
      have hh : levels.head? = some .templateQuote := by simpa [isCode] using hcode
      exact ⟨levels.tail, eq_cons_of_mem_head? hh⟩
    have ho : ∀ level ∈ outer, level.isEnclosing := (forall_mem_cons.mp hlevels).2
    rw [Script.piece?_template] at hp
    unfold templatePiece? at hp
    split at hp
    · cases hp
      exact ⟨leads_substitution hs ho, forall_mem_cons.mpr ⟨rfl, hlevels⟩⟩
    · cases hp
      exact ⟨leads_escape hs ho _, hlevels⟩
    · cases hp
      refine ⟨leads_letter hs ho hf, ?_⟩
      split
      · exact ho
      · exact hlevels
    · cases hp

/-- **A passage whose pieces are followed** leaves open what its pieces leave open. -/
theorem leads_passage {ps : List Piece} (h : Passage levels cs ps after rest)
    (hs : s.Shows levels false t) (hlevels : ∀ level ∈ levels, level.isEnclosing)
    (hf : t.followsAll ps) : s.Leads (Piece.text ps) after false (t.afterAll ps) := by
  induction h generalizing s t with
  | refl => exact hs.leads
  | step hfi _ ih =>
    simp only [Trail.followsAll, Bool.and_eq_true] at hf
    obtain ⟨hl, hb⟩ := leads_piece hs hlevels hfi hf.1
    exact hl.trans _ fun next hn => ih hn hb hf.2

end State
end Nesting
end PugTemplate
