import PugTemplate.Proofs.Node.Derivation
import PugTemplate.Proofs.Node.Located
/-!
# What readers leave

A production that succeeds has read by the rules, and a node that it builds is where its tokens are.
If the tokens end with the token for the end, then no reader comes behind it: a reader that fails has
found a token that it does not expect, and blames its place.
-/

namespace PugTemplate

open List

def Phrase.children : Phrase → List Node
  | .nodes a => a
  | .content a => a
  | .branches a => a
  | .others more otherwise =>
    more.flatMap (fun branch => branch.body.nodes) ++ nodesOf otherwise

/-- The reading of tokens at some places. What is said of places holds if the tokens are
ready. -/
structure TreeReading extends TreeSetting where
  place : Position → Prop
  ready : Prop

namespace TreeReading

open TreeSetting

variable {e : TreeReading} {t : Token} {ts mid rest : TokenStream} {α β : Type}

attribute [local simp] TokenKind.isText

/-- The tokens are ready, if those of the template are. -/
def On (e : TreeReading) (ts : TokenStream) : Prop := e.ready → Ready e.place ts

theorem On.tail (h : e.On (t :: ts)) (ht : t.kind ≠ .eos) : e.On ts := fun ready =>
  (h ready).tail ht

theorem On.place (h : e.On (t :: ts)) (ready : e.ready) : e.place t.position := (h ready).head

def Stands (e : TreeReading) (node : Node) : Prop := node.location.IsIn e.file e.place

/-! ## Readers -/

/-- **What a reader leaves.** Its result and the tokens that it leaves are related to each other, or
it refuses the tokens at a place in the text. It is never `exhausted`. -/
def Leaves (e : TreeReading) (x : TokenReader α) (ts : TokenStream) (Q : α → TokenStream → Prop) :
    Prop :=
  Yields (x.run ts) (fun r => Q r.1 r.2)
    (Halt.Refuses fun d => e.ready → d.PointsInto e.file e.place)

namespace Leaves

variable {x : TokenReader α} {f : α → TokenReader β} {Q Q' : α → TokenStream → Prop}
  {R : β → TokenStream → Prop}

theorem pure {a : α} (ha : Q a ts) : e.Leaves (Pure.pure a) ts Q := ha

theorem bind (hx : e.Leaves x ts Q) (hf : ∀ a rest, Q a rest → e.Leaves (f a) rest R) :
    e.Leaves (x >>= f) ts R :=
  Yields.bind hx fun r hr => hf r.1 r.2 hr

theorem mono (hx : e.Leaves x ts Q) (hQ : ∀ a rest, Q a rest → Q' a rest) : e.Leaves x ts Q' :=
  Yields.mono hx (fun r hr => hQ r.1 r.2 hr) fun _ h => h

theorem map {g : α → β} (hx : e.Leaves x ts Q) (hg : ∀ a rest, Q a rest → R (g a) rest) :
    e.Leaves (g <$> x) ts R := by
  rw [map_eq_pure_bind]
  exact hx.bind hg

end Leaves

section Tokens

variable {f : Token → TokenReader β} {R : β → TokenStream → Prop}

theorem leaves_fail {cause : Cause} {p : Position} (hc : cause.category ≠ .endOfStream)
    (hp : e.ready → e.place p) : e.Leaves (e.fail cause p) ts R :=
  Yields.error fun ready => ⟨rfl, hc, hp ready⟩

theorem leaves_peek (hts : e.On ts) (hf : ∀ t tail, ts = t :: tail → e.Leaves (f t) ts R) :
    e.Leaves (e.peek >>= f) ts R := by
  cases ts with
  | nil => exact Yields.error fun ready => absurd (hts ready).pos (Nat.lt_irrefl 0)
  | cons t tail => exact hf t tail rfl

theorem leaves_advance (h : e.Leaves (f t) ts R) : e.Leaves (e.advance >>= f) (t :: ts) R := h

theorem leaves_next (hts : e.On ts) (hf : ∀ t tail, ts = t :: tail → e.Leaves (f t) tail R) :
    e.Leaves (e.advance >>= f) ts R := by
  cases ts with
  | nil => exact Yields.error fun ready => absurd (hts ready).pos (Nat.lt_irrefl 0)
  | cons t tail => exact hf t tail rfl

theorem leaves_budget {f : Nat → TokenReader β} (h : e.Leaves (f (ts.length + 1)) ts R) :
    e.Leaves (TreeSetting.budget >>= f) ts R := h

theorem leaves_expect {kind : String} (hts : e.On ts)
    (hf : ∀ t tail, ts = t :: tail → t.name = kind → e.Leaves (f t) tail R) :
    e.Leaves (e.expect kind >>= f) ts R := by
  unfold expect
  rw [bind_assoc]
  refine leaves_peek hts fun t tail ht => ?_
  split
  · rename_i hna
    subst ht
    exact hf t tail rfl (beq_iff_eq.mp hna)
  · subst ht
    exact (leaves_fail (R := fun _ _ => False) (by rintro ⟨⟩) hts.place).bind fun _ _ h => h.elim

theorem leaves_accept {kind : String} {f : Option Token → TokenReader β} (hts : e.On ts)
    (hs : ∀ t tail, ts = t :: tail → t.name = kind → e.Leaves (f (some t)) tail R)
    (hno : (∀ t ∈ ts.head?, t.name ≠ kind) → e.Leaves (f none) ts R) :
    e.Leaves (e.accept kind >>= f) ts R := by
  unfold accept
  rw [bind_assoc]
  refine leaves_peek hts fun t tail ht => ?_
  split
  · rename_i hna
    subst ht
    exact hs t tail rfl (beq_iff_eq.mp hna)
  · rename_i hna
    refine hno fun u hu => ?_
    obtain rfl : t = u := by simpa [ht] using hu
    exact fun h => hna (beq_iff_eq.mpr h)

end Tokens

/-- **A reader that repeats itself** does what one round does, given what is done by the rounds after
it: each of them starts with fewer tokens. -/
theorem leaves_loop {σ : Type} {loop : Nat → σ → TokenReader β}
    {Q : σ → TokenStream → β → TokenStream → Prop} {m : Nat}
    (hr : ∀ fuel acc ts, e.On ts → ts.length ≤ m →
      (∀ acc' {rest}, e.On rest → rest.length < ts.length →
        (∀ b last, Q acc' rest b last → Q acc ts b last) →
        e.Leaves (loop fuel acc') rest (Q acc ts)) →
      e.Leaves (loop (fuel + 1) acc) ts (Q acc ts))
    (fuel : Nat) {acc : σ} (hts : e.On ts) (hf : ts.length < fuel) (hm : ts.length ≤ m) :
    e.Leaves (loop fuel acc) ts (Q acc ts) := by
  induction fuel generalizing acc ts with
  | zero => exact absurd hf (Nat.not_lt_zero _)
  | succ fuel ih =>
    refine hr fuel acc ts hts hm fun acc' rest hre hl hQ => ?_
    exact (ih hre (by omega) (by omega)).mono hQ

/-! ## Tokens that have been read -/

/-- The tokens that are left are the last ones, and ready if all of them were. -/
structure Skips (e : TreeReading) (ts rest : TokenStream) : Prop where
  on : e.On ts → e.On rest
  suffix : rest <:+ ts

namespace Skips

theorem refl : e.Skips ts ts := ⟨id, suffix_refl _⟩

theorem trans (h : e.Skips ts mid) (h' : e.Skips mid rest) : e.Skips ts rest :=
  ⟨h'.on ∘ h.on, h'.suffix.trans h.suffix⟩

theorem tail (ht : t.kind ≠ .eos) : e.Skips (t :: ts) ts :=
  ⟨fun h => h.tail ht, suffix_cons t ts⟩

theorem length (h : e.Skips ts rest) : rest.length ≤ ts.length := h.suffix.length_le

end Skips

/-- The tokens in front of the others are of some kinds. -/
def Front (is : TokenKind → Bool) (ts rest : TokenStream) : Prop :=
  ∃ front, ts = front ++ rest ∧ ∀ t ∈ front, is t.kind = true

namespace Front

variable {is is' : TokenKind → Bool}

theorem nil : Front is ts ts := ⟨[], rfl, forall_mem_nil _⟩

theorem cons (ht : is t.kind) (h : Front is ts rest) : Front is (t :: ts) rest := by
  obtain ⟨front, rfl, hf⟩ := h
  exact ⟨t :: front, rfl, forall_mem_cons.mpr ⟨ht, hf⟩⟩

theorem append (h : Front is ts mid) (h' : Front is mid rest) : Front is ts rest := by
  obtain ⟨a, rfl, ha⟩ := h
  obtain ⟨b, rfl, hb⟩ := h'
  exact ⟨a ++ b, (append_assoc _ _ _).symm, forall_mem_append.mpr ⟨ha, hb⟩⟩

theorem mono (h : Front is ts rest) (his : ∀ k, is k → is' k) : Front is' ts rest := by
  obtain ⟨front, rfl, hf⟩ := h
  exact ⟨front, rfl, fun t ht => his _ (hf t ht)⟩

theorem skips (h : Front is ts rest) (heo : is .eos = false) : e.Skips ts rest := by
  obtain ⟨front, rfl, hf⟩ := h
  induction front with
  | nil => exact .refl
  | cons t front ih =>
    obtain ⟨ht, hf⟩ := forall_mem_cons.mp hf
    refine .trans (.tail fun h => ?_) (ih hf)
    rw [h, heo] at ht
    cases ht

end Front

/-- **What has been read by the rules**, where it stands. -/
structure Derives (e : TreeReading) (ts : TokenStream) (phrase : Phrase) (rest : TokenStream) :
    Prop extends Skips e ts rest where
  reads : Reads e.inMixin ts phrase rest
  located : e.ready → Throughout e.Stands phrase.children

namespace Derives

variable {a b : List Node} {node : Node}

theorem nil : e.Derives ts (.nodes []) ts := ⟨.refl, .nil, fun _ => .nil⟩

theorem append (h : e.Derives ts (.nodes a) mid) (h' : e.Derives mid (.nodes b) rest) :
    e.Derives ts (.nodes (a ++ b)) rest :=
  ⟨h.toSkips.trans h'.toSkips, h.reads.append h'.reads,
    fun ready => (h.located ready).append (h'.located ready)⟩

theorem skip (ht : t.kind.isText) : e.Derives (t :: ts) (.nodes []) ts :=
  ⟨.tail fun h => by simp [h] at ht, .skip ht, fun _ => .nil⟩

theorem text (hts : e.On (t :: ts)) (ht : t.kind.isText) (text : String) :
    e.Derives (t :: ts) (.nodes [e.textNode text t.position]) ts where
  toSkips := (skip ht).toSkips
  reads := (skip ht).reads.retext rfl
  located := fun ready => forall_mem_singleton.mpr (.mk ⟨rfl, hts.place ready⟩ Throughout.nil)

theorem spliced (h : e.Derives ts (.nodes [node]) rest) :
    e.Derives ts (.nodes (TreeSetting.spliced node)) rest where
  toSkips := h.toSkips
  reads := by
    cases node with
    | block body => exact h.reads.ungroup
    | _ => exact h.reads
  located := fun ready => .spliced (forall_mem_singleton.mp (h.located ready))

theorem asBlock (location : Location) (h : e.Derives ts (.nodes [node]) rest) :
    e.Derives ts (.nodes (TreeSetting.asBlock node location).nodes) rest := by
  have hb : (TreeSetting.asBlock node location).nodes = TreeSetting.spliced node := by
    cases node <;> rfl
  exact hb ▸ h.spliced

theorem enclosed {first last : Token} (hk : first.kind.Encloses last.kind)
    (h : e.Derives ts (.nodes a) (last :: rest)) : e.Derives (first :: ts) (.nodes a) rest := by
  have hen : first.kind ≠ .eos ∧ last.kind ≠ .eos := by
    rcases hk with ⟨⟨_, hf⟩, hl⟩ | ⟨hf, hl⟩ | ⟨hf, hl⟩ <;>
      simp [hf, hl]
  exact ⟨(Skips.tail hen.1).trans (h.toSkips.trans (.tail hen.2)), .enclosed hk h.reads, h.located⟩

end Derives

/-- Nodes have been added to those before them. -/
def Adds (e : TreeReading) (ts : TokenStream) (before nodes : List Node) (rest : TokenStream) :
    Prop :=
  ∃ new, nodes = before ++ new ∧ e.Derives ts (.nodes new) rest

namespace Adds

variable {before nodes a : List Node}

theorem none : e.Adds ts before before ts := ⟨[], (append_nil _).symm, .nil⟩

theorem after (h : e.Adds mid (before ++ a) nodes rest) (ha : e.Derives ts (.nodes a) mid) :
    e.Adds ts before nodes rest := by
  obtain ⟨new, rfl, hne⟩ := h
  exact ⟨a ++ new, append_assoc _ _ _, ha.append hne⟩

theorem skips (h : e.Adds ts before nodes rest) : e.Skips ts rest := by
  obtain ⟨new, -, hne⟩ := h
  exact hne.toSkips

theorem derives (h : e.Adds ts [] nodes rest) : e.Derives ts (.nodes nodes) rest := by
  obtain ⟨new, rfl, hne⟩ := h
  exact hne

end Adds

/-! ## Expressions and blocks -/

/-- An expression takes at least one token. -/
structure Takes (e : TreeReading) (ts : TokenStream) (node : Node) (rest : TokenStream) :
    Prop extends Derives e ts (.nodes [node]) rest where
  lt : rest.length < ts.length

theorem On.takes {node : Node} (hts : e.On (t :: ts)) (ht : t.kind ≠ .eos)
    (hr : e.Skips ts rest) (hre : Reads e.inMixin (t :: ts) (.nodes [node]) rest)
    (hl : node.location = e.location t.position)
    (hc : e.ready → Throughout e.Stands node.children) :
    e.Takes (t :: ts) node rest where
  toSkips := (Skips.tail ht).trans hr
  reads := hre
  located := fun ready => forall_mem_singleton.mpr
    (.mk (hl ▸ ⟨rfl, hts.place ready⟩ : node.location.IsIn _ _) (hc ready))
  lt := Nat.lt_succ_of_le hr.length

def DerivesBlock (e : TreeReading) (ts : TokenStream) (nodes : List Node) (rest : TokenStream) :
    Prop :=
  ∃ i inside o width, ts = i :: inside ∧ i.kind = .indent width ∧ o.kind = .outdent ∧
    e.Derives inside (.nodes nodes) (o :: rest)

namespace DerivesBlock

variable {nodes : List Node}

theorem derives (h : e.DerivesBlock ts nodes rest) : e.Derives ts (.nodes nodes) rest := by
  obtain ⟨i, inside, o, width, rfl, hi, ho, h⟩ := h
  exact h.enclosed (.inl ⟨⟨width, hi⟩, ho⟩)

theorem lt (h : e.DerivesBlock ts nodes rest) : rest.length < ts.length := by
  obtain ⟨i, inside, o, width, rfl, -, -, h⟩ := h
  exact Nat.lt_succ_of_lt h.length

end DerivesBlock

/-! ## Lower levels -/

/-- What the productions rely on: there are no hooks, and the readers of the lower level read on in
streams of at most so many tokens. -/
structure Supported (e : TreeReading) (n : Nat) : Prop where
  plugins : e.plugins = {}
  expression : ∀ m ts, e.On ts → ts.length ≤ n →
    e.Leaves (e.lower.expression m) ts (Takes { e with inMixin := m } ts)
  block : ∀ m ts, e.On ts → ts.length ≤ n → e.Leaves (e.lower.block m) ts fun body =>
      DerivesBlock { e with inMixin := m } ts body.nodes

variable {n : Nat} (henv : e.Supported n) (hts : e.On ts) (hn : ts.length ≤ n)
include henv hts hn

theorem leaves_expression : e.Leaves e.expression ts (e.Takes ts) := henv.expression _ ts hts hn

theorem leaves_block : e.Leaves e.block ts fun body => e.DerivesBlock ts body.nodes :=
  henv.block _ ts hts hn

theorem leaves_block? : e.Leaves e.block? ts fun body rest =>
    (body = none ∧ rest = ts) ∨ ∃ b, body = some b ∧ e.DerivesBlock ts b.nodes rest := by
  refine leaves_peek hts fun t tail ht => ?_
  split
  · exact (leaves_block henv hts hn).map fun b rest hb => .inr ⟨b, rfl, hb⟩
  · exact .pure (.inl ⟨rfl, rfl⟩)

theorem leaves_blockOrEmpty (location : Location) :
    e.Leaves (e.blockOrEmpty location) ts fun body => e.Derives ts (.nodes body.nodes) := by
  refine (leaves_block? henv hts hn).bind fun body rest hbo => .pure ?_
  obtain ⟨rfl, rfl⟩ | ⟨b, rfl, hb⟩ := hbo
  · exact .nil
  · exact hb.derives

end TreeReading
end PugTemplate
