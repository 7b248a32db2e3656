import PugTemplate.Proofs.Node.Productions.Tag
/-!
# What the productions leave, up to whole trees

One lemma for each production of control flow, mixins, other files and filters, without hooks: what
it builds is read by the rules and located where its tokens are, and so is what it refuses.
-/

namespace PugTemplate
namespace TreeReading

open TreeSetting

variable {e : TreeReading} {n : Nat} {t : Token} {ts : TokenStream} {before : List Node}
  {buffer : Bool} {name : String}

attribute [local simp] TokenKind.isText TokenKind.isInert TokenKind.startsText

/-! ## Blocks of nodes -/

theorem leaves_nodesUntil (hen : e.Supported n) (stop : TokenKind) (fuel : Nat) (ht : e.On ts)
    (hf : ts.length < fuel) (hn : ts.length ≤ n) :
    e.Leaves (e.nodesUntil stop fuel before) ts fun nodes rest =>
      e.Adds ts before nodes rest ∧ ∃ last ∈ rest.head?, last.kind = stop := by
  refine leaves_loop (Q := fun before ts nodes rest =>
    e.Adds ts before nodes rest ∧ ∃ last ∈ rest.head?, last.kind = stop)
    (fun fuel before ts ht hn hl => ?_) fuel ht hf hn
  have hne {a more mid} (ha : e.Derives ts (.nodes a) mid) (hle : mid.length < ts.length)
      (hm : more = before ++ a) :=
    hl more (ha.on ht) hle fun nodes rest h => ⟨(hm ▸ h.1).after ha, h.2⟩
  refine leaves_peek ht ?_
  rintro t tail rfl
  split
  · rename_i hs
    exact .pure ⟨.none, t, rfl, beq_iff_eq.mp hs⟩
  · split
    · rename_i hk
      exact leaves_advance (hne (.skip (by simp [hk])) (Nat.lt_succ_self _)
        (List.append_nil _).symm)
    · rename_i hk
      exact (leaves_textHtml hen ht hk (Nat.le_of_succ_le hn)).bind
        fun more rest hm => hne hm.1 hm.2 rfl
    · exact (leaves_expression hen ht hn).bind fun node rest hno =>
        hne hno.spliced hno.lt rfl

theorem leaves_blockStep (hen : e.Supported n) (ht : e.On ts) (hn : ts.length ≤ n + 1) :
    e.Leaves e.blockStep ts fun body => e.DerivesBlock ts body.nodes := by
  refine leaves_expect ht ?_
  rintro i inside rfl hi
  obtain ⟨width, hi⟩ := Token.name_eq_indent.mp hi
  have hin := ht.tail (by simp [hi])
  refine leaves_budget ((leaves_nodesUntil hen _ _ hin (Nat.lt_succ_self _)
    (Nat.le_of_succ_le_succ hn)).bind fun nodes mid hno => ?_)
  refine leaves_expect (hno.1.skips.on hin) ?_
  rintro o rest rfl ho
  exact .pure ⟨i, inside, o, width, rfl, hi, (Token.name_eq_iff rfl).mp ho, hno.1.derives⟩

theorem leaves_blockExpansion (hen : e.Supported n) (hts : e.On ts) (hn : ts.length ≤ n) :
    e.Leaves e.blockExpansion ts fun body rest =>
      (∃ mid, Unmarked ts mid ∧ e.Derives mid (.nodes body.nodes) rest) ∧ e.Skips ts rest := by
  refine leaves_accept hts ?_ fun _ => (leaves_block hen hts hn).mono fun body rest hb =>
    ⟨⟨ts, .inl rfl, hb.derives⟩, hb.derives.toSkips⟩
  rintro t tail rfl ht
  have ht : t.kind = .colon := (Token.name_eq_iff rfl).mp ht
  have hs : e.Skips (t :: tail) tail := .tail (by simp [ht])
  exact (leaves_expression hen (hs.on hts) (Nat.le_of_succ_le hn)).bind fun node rest hno =>
    .pure ⟨⟨tail, .inr ⟨t, rfl, .inr ht⟩, hno.asBlock _⟩, hs.trans hno.toSkips⟩

/-! ## Control flow -/

theorem leaves_codeBlock (hen : e.Supported n) {source : String} {escape : Bool}
    (ht : t.kind = .code source escape buffer) (hts : e.On (t :: ts)) (hn : ts.length ≤ n) :
    e.Leaves (e.codeBlock source escape buffer t.position) ts (e.Takes (t :: ts)) := by
  have hta := hts.tail (by simp [ht])
  refine leaves_peek hta ?_
  rintro u tail rfl
  split
  · split
    · exact leaves_fail (by rintro ⟨⟩) hta.place
    · rename_i hbu
      obtain rfl : buffer = false := by simpa using hbu
      exact (leaves_block hen hta hn).bind fun body rest hb =>
        .pure (hts.takes (by simp [ht]) hb.derives.toSkips
          (.codeBlock ht ⟨rfl, rfl, rfl, rfl⟩ rfl hb.derives.reads) rfl hb.derives.located)
  · exact .pure (hts.takes (by simp [ht]) .refl (.code (.inl ht) ⟨rfl, rfl, rfl, rfl⟩) rfl
      fun _ => .nil)

/-- Branches of a choice have been added to those before them. -/
def AddsBranches (e : TreeReading) (ts : TokenStream) (before nodes : List Node)
    (rest : TokenStream) : Prop :=
  ∃ new, nodes = before ++ new ∧ e.Derives ts (.branches new) rest

theorem AddsBranches.after {mid rest : TokenStream} {nodes : List Node} {value : String}
    {body : Option Block}
    (h : AddsBranches e mid (before ++ [.when value body (e.location t.position)]) nodes rest)
    (ht : e.On (t :: ts)) (hs : e.Skips (t :: ts) mid)
    (hb : e.ready → Throughout e.Stands (nodesOf body))
    (hr : ∀ a, Reads e.inMixin mid (.branches a) rest → Reads e.inMixin (t :: ts) (.branches (.when value body (e.location t.position) :: a)) rest) :
    AddsBranches e (t :: ts) before nodes rest := by
  obtain ⟨new, rfl, hn⟩ := h
  refine ⟨_ :: new, List.append_assoc _ _ _, hs.trans hn.toSkips, hr new hn.reads,
    fun ready => List.forall_mem_cons.mpr ⟨?_, hn.located ready⟩⟩
  exact .mk ⟨rfl, ht.place ready⟩ (hb ready)

theorem leaves_caseBranches (hen : e.Supported n) (fuel : Nat) (hts : e.On ts)
    (hf : ts.length < fuel) (hn : ts.length ≤ n + 1) :
    e.Leaves (e.caseBranches fuel before) ts (AddsBranches e ts before) := by
  refine leaves_loop (Q := fun before ts => AddsBranches e ts before)
    (fun fuel before ts hts hn hl => ?_) fuel hts hf hn
  refine leaves_peek hts ?_
  rintro t tail rfl
  have hn := Nat.le_of_succ_le_succ hn
  -- Line ends and comments between branches.
  have hs (ht : t.kind = .newline ∨ ∃ text buffer, t.kind = .comment text buffer) := by
    have hta : e.Skips (t :: tail) tail :=
      .tail (by rcases ht with ht | ⟨text, buffer, ht⟩ <;> simp [ht])
    refine hl before (hta.on hts) (Nat.lt_succ_self _) ?_
    rintro nodes rest ⟨new, rfl, hne⟩
    exact ⟨new, rfl, hta.trans hne.toSkips, .skipBranch ht hne.reads, hne.located⟩
  have hbr {value : String} {body : Block} {rest : TokenStream}
      (ht : t.kind.branchValue? = some value) (hta : e.Skips (t :: tail) tail)
      (hb : (∃ mid, Unmarked tail mid ∧ e.Derives mid (.nodes body.nodes) rest) ∧
        e.Skips tail rest) :=
    hl (before ++ [.when value (some body) (e.location t.position)])
      (hb.2.on (hta.on hts)) (Nat.lt_succ_of_le hb.2.length) fun nodes last h => by
        obtain ⟨⟨inside, hm, hi⟩, hr⟩ := hb
        exact h.after hts (hta.trans hr) hi.located fun a ha =>
          .branch ht rfl hm hi.reads ha
  split
  · exact .pure ⟨[], (List.append_nil _).symm, .refl, .noBranch, fun _ => .nil⟩
  · rename_i text buffer hk
    exact leaves_advance (hs (.inr ⟨text, buffer, hk⟩))
  · rename_i hk
    exact leaves_advance (hs (.inl hk))
  · rename_i value hk
    have hta : e.Skips (t :: tail) tail := .tail (by simp [hk])
    refine leaves_advance (leaves_peek (hta.on hts) fun u after haf => ?_)
    split
    · exact hl _ (hta.on hts) (Nat.lt_succ_self _) fun nodes last h =>
        h.after hts hta (fun _ => .nil) fun a ha => .fallThrough hk rfl ha
    · rw [map_eq_pure_bind, bind_assoc]
      exact (leaves_blockExpansion hen (hta.on hts) hn).bind fun body rest hb =>
        hbr (by rw [hk]; rfl) hta hb
  · rename_i hk
    have hta : e.Skips (t :: tail) tail := .tail (by simp [hk])
    exact leaves_advance ((leaves_blockExpansion hen (hta.on hts) hn).bind fun body rest hb =>
      hbr (by rw [hk]; rfl) hta hb)
  · simp only [hookNodes, hen.plugins, Plugins.nodes?, List.lookup_nil, pure_bind]
    refine leaves_peek hts ?_
    rintro u rest ⟨⟩
    exact leaves_fail (by rintro ⟨⟩) hts.place

theorem leaves_case (hen : e.Supported n) {subject : String} (ht : t.kind = .case subject)
    (hts : e.On (t :: ts)) (hn : ts.length ≤ n) :
    e.Leaves (e.case subject t.position) ts (e.Takes (t :: ts)) := by
  have hta := hts.tail (by simp [ht])
  refine leaves_expect hta ?_
  rintro i inside rfl hi
  obtain ⟨width, hi⟩ := Token.name_eq_indent.mp hi
  have hin := hta.tail (by simp [hi])
  refine leaves_budget ((leaves_caseBranches hen _ hin (Nat.lt_succ_self _)
    (Nat.le_succ_of_le (Nat.le_of_succ_le hn))).bind fun nodes mid hno => ?_)
  obtain ⟨new, rfl, hne⟩ := hno
  refine leaves_expect (hne.on hin) ?_
  rintro o rest rfl ho
  have ho : o.kind = .outdent := (Token.name_eq_iff rfl).mp ho
  have hs : e.Skips (i :: inside) rest :=
    .trans (.tail (by simp [hi])) (hne.toSkips.trans (.tail (by simp [ho])))
  exact .pure (hts.takes (by simp [ht]) hs (.case ht rfl hi ho hne.reads) rfl hne.located)

theorem leaves_otherBranches (hen : e.Supported n) (fuel : Nat) {before : List Branch}
    (hts : e.On ts) (hf : ts.length < fuel) (hn : ts.length ≤ n + 1) :
    e.Leaves (e.otherBranches fuel before) ts fun result rest =>
      ∃ new, result.1 = before ++ new ∧ e.Derives ts (.others new result.2) rest := by
  refine leaves_loop (Q := fun before ts (result : List Branch × Option Block) rest =>
    ∃ new, result.1 = before ++ new ∧ e.Derives ts (.others new result.2) rest)
    (fun fuel before ts hts hn hl => ?_) fuel hts hf hn
  refine leaves_peek hts ?_
  rintro t tail rfl
  have hn := Nat.le_of_succ_le_succ hn
  split
  · rename_i hk
    have ht : e.Skips (t :: tail) tail := .tail (by simp [hk])
    refine leaves_advance (hl _ (ht.on hts) (Nat.lt_succ_self _) ?_)
    rintro result rest ⟨new, hr, hne⟩
    exact ⟨new, hr, ht.trans hne.toSkips, .skipOther hk hne.reads, hne.located⟩
  · rename_i test hk
    have ht : e.Skips (t :: tail) tail := .tail (by simp [hk])
    unfold branch
    simp only [bind_assoc, pure_bind]
    refine leaves_advance ((leaves_blockOrEmpty hen (ht.on hts) hn _).bind fun body mid hbo => ?_)
    refine hl _ (hbo.on (ht.on hts)) (Nat.lt_succ_of_le hbo.length) ?_
    rintro result rest ⟨new, hr, hne⟩
    refine ⟨_ :: new, hr.trans (List.append_assoc _ _ _),
      ht.trans (hbo.toSkips.trans hne.toSkips), .elseIf hk rfl hbo.reads hne.reads,
      fun ready => ?_⟩
    have ha := (hbo.located ready).append (hne.located ready)
    simpa [Phrase.children] using ha
  · rename_i text hk
    have ht : e.Skips (t :: tail) tail := .tail (by simp [hk])
    refine leaves_advance ((leaves_block? hen (ht.on hts) hn).bind fun body rest hbo => ?_)
    obtain ⟨rfl, rfl⟩ | ⟨b, rfl, hb⟩ := hbo
    · exact .pure ⟨[], (List.append_nil _).symm, ht, .emptyElse hk, fun _ => .nil⟩
    · exact .pure ⟨[], (List.append_nil _).symm, ht.trans hb.derives.toSkips,
        .else hk hb.derives.reads, hb.derives.located⟩
  · exact .pure ⟨[], (List.append_nil _).symm, .refl, .noOther, fun _ => .nil⟩

theorem leaves_conditional (hen : e.Supported n) {test : String} (ht : t.kind = .if test)
    (hts : e.On (t :: ts)) (hn : ts.length ≤ n) :
    e.Leaves (e.conditional test t.position) ts (e.Takes (t :: ts)) := by
  have hta := hts.tail (by simp [ht])
  unfold conditional branch
  simp only [bind_assoc, pure_bind]
  refine (leaves_blockOrEmpty hen hta hn _).bind fun body mid hb => leaves_budget ?_
  refine (leaves_otherBranches hen _ (hb.on hta) (Nat.lt_succ_self _)
    (Nat.le_succ_of_le (Nat.le_trans hb.length hn))).bind fun others rest ho => .pure ?_
  obtain ⟨new, hne, ho⟩ := ho
  obtain rfl : others.1 = new := hne
  refine hts.takes (by simp [ht]) (hb.toSkips.trans ho.toSkips)
    (.conditional ht rfl hb.reads ho.reads) rfl fun ready => ?_
  show Throughout e.Stands (body.nodes ++ _ ++ _)
  rw [List.append_assoc]
  exact (hb.located ready).append (ho.located ready)

theorem leaves_each (hen : e.Supported n) {item list : String} {key : Option String}
    (ht : t.kind = .each item key list) (hts : e.On (t :: ts)) (hn : ts.length ≤ n) :
    e.Leaves (e.each item key list t.position) ts (e.Takes (t :: ts)) := by
  have hta := hts.tail (by simp [ht])
  refine (leaves_block hen hta hn).bind fun body mid hb => ?_
  have hb := hb.derives
  refine leaves_accept (hb.on hta) ?_ fun _ => ?_
  · rintro u tail rfl hu
    obtain ⟨text, hu⟩ := Token.name_eq_else.mp hu
    have hm := hb.toSkips.trans (.tail (by simp [hu]))
    simp only [map_eq_pure_bind, bind_assoc]
    refine (leaves_block hen (hm.on hta) (Nat.le_trans hm.length hn)).bind
      fun otherwise rest ho => ?_
    have ho := ho.derives
    exact .pure (hts.takes (by simp [ht]) (hm.trans ho.toSkips)
      (.eachElse ht rfl hb.reads hu ho.reads) rfl
      fun ready => (hb.located ready).append (ho.located ready))
  · exact .pure (hts.takes (by simp [ht]) hb.toSkips (.each ht rfl hb.reads) rfl
      fun ready => (hb.located ready).append .nil)

/-! ## Other files, filters and comments -/

theorem leaves_fileReference (hts : e.On ts) :
    e.Leaves e.fileReference ts fun _ => Front TokenKind.isInert ts := by
  refine leaves_expect hts ?_
  rintro t tail rfl ht
  obtain ⟨path, ht⟩ := Token.name_eq_path.mp ht
  exact .pure (.cons (by simp [ht]) .nil)

theorem leaves_includeFilters (fuel : Nat) {filters : List FilterCall} (hts : e.On ts)
    (hf : ts.length < fuel) :
    e.Leaves (e.includeFilters fuel filters) ts fun _ => Front TokenKind.isInert ts := by
  refine leaves_loop (Q := fun _ ts _ => Front TokenKind.isInert ts)
    (fun fuel filters ts hts _ hl => ?_) fuel hts hf (Nat.le_refl _)
  refine leaves_peek hts ?_
  rintro t tail rfl
  split
  · rename_i hk
    have ht := hts.tail (by simp [hk])
    refine leaves_advance ((leaves_looseAttributes ht).bind fun attributes mid hm => ?_)
    have hs : e.Skips tail mid := hm.skips rfl
    exact hl _ (hs.on ht) (Nat.lt_succ_of_le hs.length) fun _ rest h =>
      .cons (by simp [hk]) (hm.append h)
  · exact .pure .nil

theorem leaves_includeFile (hen : e.Supported n) (ht : t.kind = .include) (hts : e.On (t :: ts))
    (hn : ts.length ≤ n) :
    e.Leaves (e.includeFile t.position) ts (e.Takes (t :: ts)) := by
  have hta := hts.tail (by simp [ht])
  refine leaves_budget ((leaves_includeFilters _ hta (Nat.lt_succ_self _)).bind
    fun filters mid hm => ?_)
  refine (leaves_fileReference ((hm.skips rfl).on hta)).bind fun file after ha => ?_
  have hs : e.Skips ts after := (hm.append ha).skips rfl
  obtain ⟨front, ht', hf⟩ :=
    (hm.append ha).cons (t := t) (by simp [ht])
  split
  · refine (leaves_blockOrEmpty hen (hs.on hta) (Nat.le_trans hs.length hn) _).bind
      fun body rest hb => .pure (hts.takes (by simp [ht]) (hs.trans hb.toSkips) ?_ rfl hb.located)
    exact ht' ▸ .wrap hf rfl hb.reads
  · refine leaves_peek (hs.on hta) ?_
    rintro u tail rfl
    split
    · exact leaves_fail (by rintro ⟨⟩) (hs.on hta).place
    · exact .pure (hts.takes (by simp [ht]) hs (ht' ▸ .leaf hf rfl) rfl fun _ => .nil)

theorem leaves_filter (hen : e.Supported n) (ht : t.kind = .filter name) (hts : e.On (t :: ts))
    (hn : ts.length ≤ n) : e.Leaves (e.filter name t.position) ts (e.Takes (t :: ts)) := by
  have hta := hts.tail (by simp [ht])
  refine (leaves_looseAttributes hta).bind fun attributes mid hm => ?_
  have hs : e.Skips ts mid := hm.skips rfl
  obtain ⟨front, ht', hf⟩ := hm.cons (t := t) (by simp [ht])
  have hm := hs.on hta
  have hn' := Nat.le_trans hs.length hn
  have hw {body : Block} {rest} (hb : e.Derives mid (.nodes body.nodes) rest) :
      e.Takes (t :: ts) (.filter name body attributes (e.location t.position)) rest :=
    hts.takes (by simp [ht]) (hs.trans hb.toSkips) (ht' ▸ .wrap hf rfl hb.reads) rfl hb.located
  refine leaves_peek hm ?_
  rintro u tail rfl
  split
  · rename_i text hk
    exact leaves_advance (.pure (hw (.text hm (by simp [hk]) text)))
  · exact (leaves_expression hen hm hn').bind fun node rest hno => .pure (hw hno.toDerives)
  · exact (leaves_textBlockOrEmpty hen _ hm (Nat.le_succ_of_le hn')).bind
      fun body rest hb => .pure (hw hb.1)

theorem leaves_comment (hen : e.Supported n) {text : String} (ht : t.kind = .comment text buffer)
    (hts : e.On (t :: ts)) (hn : ts.length ≤ n) :
    e.Leaves (e.comment text buffer t.position) ts (e.Takes (t :: ts)) := by
  have hf : ∀ u ∈ [t], u.kind.isInert := by simp [ht]
  refine (leaves_textBlock? hen (hts.tail (by simp [ht])) (Nat.le_succ_of_le hn)).bind
    fun body rest hbo => ?_
  obtain ⟨rfl, rfl⟩ | ⟨b, rfl, hb, -⟩ := hbo
  · exact .pure (hts.takes (by simp [ht]) .refl (.leaf hf rfl) rfl fun _ => .nil)
  · exact .pure (hts.takes (by simp [ht]) hb.toSkips (.wrap hf rfl hb.reads) rfl hb.located)

/-! ## Mixins -/

theorem leaves_mixin (hen : e.Supported n) {parameters : Option String}
    (ht : t.kind = .mixin name parameters) (hts : e.On (t :: ts)) (hn : ts.length ≤ n) :
    e.Leaves (e.mixin name parameters t.position) ts (e.Takes (t :: ts)) := by
  have hta := hts.tail (by simp [ht])
  refine leaves_peek hta ?_
  rintro u tail rfl
  split
  · refine (hen.block true _ hta hn).bind fun body rest hb => .pure ?_
    have hd := hb.derives
    obtain ⟨i, inside, o, width, ht', hi, ho, hin⟩ := hb
    refine hts.takes (by simp [ht]) ⟨hd.on, hd.suffix⟩ ?_ rfl hd.located
    exact ht' ▸ .mixin ht rfl hi ho hin.reads
  · exact leaves_fail (by rintro ⟨⟩) hts.place

theorem leaves_mixinBlock (ht : t.kind = .mixinBlock) (hts : e.On (t :: ts)) :
    e.Leaves (e.mixinBlock t.position) ts (e.Takes (t :: ts)) := by
  unfold mixinBlock
  split
  · rename_i hm
    exact .pure (hts.takes (by simp [ht]) .refl (hm ▸ .mixinBlock ht) rfl fun _ => .nil)
  · exact leaves_fail (by rintro ⟨⟩) hts.place

/-! ## Expressions -/

theorem leaves_step (hen : e.Supported n) (hts : e.On ts) (hn : ts.length ≤ n + 1) :
    e.Leaves e.step ts (e.Takes ts) := by
  refine leaves_peek hts ?_
  rintro t tail rfl
  have hn : tail.length ≤ n := Nat.le_of_succ_le_succ hn
  have hte (hk : t.kind.startsText) := leaves_text hen true hts hk hn
  have hta (label : TagLabel) (ht : t.kind = label.token) (hne : t.kind ≠ .eos) :
      e.Leaves (e.advance >>= fun _ => e.tag label t.position) (t :: tail) (e.Takes (t :: tail)) :=
    leaves_advance ((leaves_tagDraft hen true _ (hts.tail hne) (Nat.le_succ _) hn
      (.inl (Nat.le_refl _))).bind fun draft rest hd => .pure (hts.takes hne hd.1.toSkips
        (.tag ht rfl hd.1.reads) rfl hd.1.located))
  -- A tag without a name takes its first token with the attributes.
  have hdi (ht : t.kind.StartsTag) :
      e.Leaves (e.tag (.name "div") t.position) (t :: tail) (e.Takes (t :: tail)) :=
    (leaves_tagDraft hen true _ hts (Nat.le_refl _) hn (.inr ⟨t, rfl, ht⟩)).bind
      fun draft rest hd => .pure ⟨⟨hd.1.toSkips, .bareTag ht rfl rfl hd.1.reads,
        fun ready => List.forall_mem_singleton.mpr
          (.mk ⟨rfl, hts.place ready⟩ (hd.1.located ready))⟩, Nat.lt_succ_of_le hd.2⟩
  have hle {node : Node} (ht : t.kind.isInert) (hnod : node.isLeaf)
      (hl : node.location = e.location t.position) (hc : node.children = []) :
      e.Leaves (pure node) tail (e.Takes (t :: tail)) := by
    have hr : Reads e.inMixin ([t] ++ tail) (.nodes [node]) tail :=
      .leaf (List.forall_mem_singleton.mpr ht) hnod
    exact .pure (hts.takes (fun h => by simp [h] at ht) .refl hr hl fun _ => hc ▸ .nil)
  split
  · rename_i hk
    exact hta (.name _) hk (by simp [hk])
  · rename_i hk
    exact hta (.expression _) hk (by simp [hk])
  · rename_i name hk
    exact hdi (.inl ⟨name, hk⟩)
  · rename_i name hk
    exact hdi (.inr ⟨name, hk⟩)
  · rename_i hk
    exact leaves_advance (leaves_mixin hen hk hts hn)
  · rename_i hk
    exact leaves_advance (leaves_call hen hk hts hn)
  · rename_i hk
    exact leaves_advance (leaves_mixinBlock hk hts)
  · rename_i hk
    exact leaves_advance ((leaves_blockOrEmpty hen (hts.tail (by simp [hk])) hn _).bind
      fun body rest hb => .pure (hts.takes (by simp [hk]) hb.toSkips
        (.namedBlock hk rfl hb.reads) rfl hb.located))
  · rename_i hk
    exact leaves_advance (leaves_case hen hk hts hn)
  · rename_i hk
    refine leaves_advance ((leaves_fileReference (hts.tail (by simp [hk]))).bind
      fun file rest hf => ?_)
    obtain ⟨front, ht', hfr⟩ := hf.cons (t := t) (by simp [hk])
    exact .pure (hts.takes (by simp [hk]) (hf.skips rfl) (ht' ▸ .leaf hfr rfl) rfl fun _ => .nil)
  · rename_i hk
    exact leaves_advance (leaves_includeFile hen hk hts hn)
  · rename_i hk
    exact leaves_advance (hle (by simp [hk]) rfl rfl rfl)
  · rename_i hk
    exact leaves_advance (leaves_filter hen hk hts hn)
  · rename_i hk
    exact leaves_advance (leaves_comment hen hk hts hn)
  · rename_i hk
    exact hte (by simp [hk])
  · rename_i hk
    exact hte (by simp [hk])
  · rename_i hk
    exact hte (by simp [hk])
  · rename_i hk
    refine (leaves_textHtml hen hts hk hn).bind fun nodes rest hno =>
      .pure ⟨⟨hno.1.toSkips, .group hno.1.reads, fun ready => ?_⟩, hno.2⟩
    exact List.forall_mem_singleton.mpr (.mk ⟨rfl, hts.place ready⟩ (hno.1.located ready))
  · rename_i hk
    have hdo : e.Derives (t :: tail) (.nodes []) tail := .skip (by simp [hk])
    refine leaves_advance ((leaves_textBlockOrEmpty hen _ (hdo.on hts)
      (Nat.le_succ_of_le hn)).bind fun body rest hb => .pure ⟨⟨hdo.toSkips.trans hb.1.toSkips,
        .group (hdo.append hb.1).reads, fun ready => ?_⟩, Nat.lt_succ_of_le hb.1.length⟩)
    exact List.forall_mem_singleton.mpr
      (.mk (hb.2 ready ⟨rfl, hts.place ready⟩) (hb.1.located ready))
  · rename_i hk
    exact leaves_advance (leaves_each hen hk hts hn)
  · rename_i hk
    exact leaves_advance (leaves_codeBlock hen hk hts hn)
  · rename_i hk
    exact leaves_advance (leaves_blockCode hen hk hts)
  · rename_i hk
    exact leaves_advance (leaves_conditional hen hk hts hn)
  · rename_i hk
    exact leaves_advance ((leaves_blockOrEmpty hen (hts.tail (by simp [hk])) hn _).bind
      fun body rest hb => .pure (hts.takes (by simp [hk]) hb.toSkips
        (.while hk rfl hb.reads) rfl hb.located))
  · rename_i hk
    exact leaves_advance (hle (by simp [hk]) rfl rfl rfl)
  · simp only [hookExpression, hen.plugins, Plugins.expression?, List.lookup_nil]
    exact leaves_fail (by rintro ⟨⟩) hts.place

/-! ## Whole lists of tokens -/

theorem supported_readers (file : Option String) (place : Position → Prop) (ready : Prop)
    {levels n : Nat} (h : n < levels) (m : Bool) :
    Supported { file, inMixin := m, lower := TreeSetting.readers file {} levels, place, ready } n := by
  induction levels generalizing n m with
  | zero => exact absurd h (Nat.not_lt_zero n)
  | succ levels ih =>
    cases n with
    | zero =>
      -- Without tokens, the readers of the last level find the end of the stream.
      refine ⟨rfl, fun _ ts ht hl => ?_, fun _ ts ht hl => ?_⟩
      all_goals
        obtain rfl : ts = [] := List.eq_nil_of_length_eq_zero (Nat.le_zero.mp hl)
        exact Yields.error fun h => absurd (ht h).pos (Nat.lt_irrefl 0)
    | succ n =>
      have hlower := ih (Nat.lt_of_succ_lt_succ h)
      refine ⟨rfl, fun m ts ht hl => (leaves_step (hlower m) ht hl).mono fun node rest h =>
        ⟨⟨⟨h.on, h.suffix⟩, h.reads, h.located⟩, h.lt⟩, fun m ts ht hl => ?_⟩
      refine Yields.mono (leaves_blockStep (hlower m) ht hl) ?_ fun _ h => h
      rintro r ⟨i, inside, o, width, hi, hk, ho, h⟩
      exact ⟨i, inside, o, width, hi, hk, ho, ⟨h.on, h.suffix⟩, h.reads, h.located⟩

/-- **The tree of a list of tokens** is read by the rules, up to the first end of a template. If the
tokens are ready, then the tree is where they are, and so is what is refused. -/
theorem yields_read (file : Option String) (place : Position → Prop) (ready : Prop)
    {tokens : TokenStream} (ht : ready → Ready place tokens) :
    Yields (Block.read file {} tokens)
      (fun r => (∃ last rest, last.kind = .eos ∧ last :: rest <:+ tokens ∧
        Reads false tokens (.nodes r.1.nodes) (last :: rest)) ∧
        (ready → Throughout (Node.IsIn file place) r.1.nodes))
      (Halt.Refuses fun d => ready → d.PointsInto file place) := by
  let e : TreeReading :=
    { file, lower := readers file {} (tokens.length + 1), place, ready }
  have hen : e.Supported tokens.length := 
    supported_readers file place ready (Nat.lt_succ_self _) false
  have hrea : e.Leaves (do
      let nodes ← e.nodesUntil .eos (← budget) []
      pure { nodes, location := { file } } : TokenReader Block) tokens
      fun root rest => e.Derives tokens (.nodes root.nodes) rest ∧
        ∃ last ∈ rest.head?, last.kind = .eos :=
    leaves_budget ((leaves_nodesUntil hen .eos _ ht (Nat.lt_succ_self _)
      (Nat.le_refl _)).bind fun nodes rest hn => .pure ⟨hn.1.derives, hn.2⟩)
  refine Yields.mono hrea (fun r hr => ⟨?_, hr.1.located⟩) fun _ h => h
  obtain ⟨hd, last, hl, heo⟩ := hr
  obtain ⟨tail, hre⟩ := List.head?_eq_some_iff.mp hl
  exact ⟨last, tail, heo, hre ▸ hd.suffix, hre ▸ hd.reads⟩

end TreeReading

/-- **The tree of a list of tokens** is read by the rules, up to the first end of a template. -/
theorem reads_ofTokens {file : Option String} {tokens : TokenStream} {tree : Block}
    (h : Block.ofTokens file {} tokens = .ok tree) :
    ∃ last rest, last.kind = .eos ∧ Reads false tokens (.nodes tree.nodes) (last :: rest) := by
  obtain ⟨_, hread⟩ := Block.ofTokens_eq_ok_iff.mp h
  obtain ⟨last, rest, heo, -, hr⟩ :=
    ((TreeReading.yields_read file (fun _ => True) False False.elim).of_ok hread).1
  exact ⟨last, rest, heo, hr⟩

/-- **The tree of tokens that end** is where they are, and so is what is refused. -/
theorem yields_ofTokens (file : Option String) {place : Position → Prop} {tokens : TokenStream}
    (ht : Ready place tokens) :
    Yields (Block.ofTokens file {} tokens) (fun root => Throughout (Node.IsIn file place) root.nodes)
      fun d => d.PointsInto file place := by
  have hread := TreeReading.yields_read file place True fun _ => ht
  unfold Block.ofTokens
  cases h : Block.read file {} tokens with
  | ok r => exact (hread.of_ok h).2 trivial
  | error halt =>
    have hhalt := hread.of_error h
    cases halt with
    | refused d => exact hhalt trivial
    | exhausted => exact hhalt.elim

/-- **Tokens that end are enough for the builder, and others never are.** Whatever the tokens are,
the builder comes to a tree or refuses them, and it does not run out of steps. -/
theorem read_terminated (file : Option String) (tokens : TokenStream) :
    ((∃ t ∈ tokens, t.kind = .eos) →
      (∃ tree rest, Block.read file {} tokens = .ok (tree, rest)) ∨
      ∃ d, Block.read file {} tokens = .error (.refused d) ∧ d.category ≠ .endOfStream ∧
        d.file = file ∧ ∃ t ∈ tokens, d.position = t.position) ∧
    ((∀ t ∈ tokens, t.kind ≠ .eos) → ∃ d, Block.read file {} tokens = .error (.refused d)) := by
  let place (p : Position) : Prop := ∃ t ∈ tokens, p = t.position
  have hread := TreeReading.yields_read file place (∃ t ∈ tokens, t.kind = .eos)
    fun hends => ⟨hends, fun t ht => ⟨t, ht, rfl⟩⟩
  cases h : Block.read file {} tokens with
  | ok r =>
    obtain ⟨⟨last, rest, heos, hsuffix, -⟩, -⟩ := hread.of_ok h
    exact ⟨fun _ => .inl ⟨r.1, r.2, rfl⟩,
      fun hnever => absurd heos (hnever last (hsuffix.mem List.mem_cons_self))⟩
  | error halt =>
    have hhalt := hread.of_error h
    cases halt with
    | exhausted => exact hhalt.elim
    | refused d =>
      refine ⟨fun hends => .inr ?_, fun _ => ⟨d, rfl⟩⟩
      obtain ⟨hfile, hcategory, hposition⟩ := hhalt hends
      exact ⟨d, rfl, hcategory, hfile, hposition⟩

/-- A list that goes on behind its end, and one that stops in a head. -/
theorem read_terminated_outdent :
    ((∃ tree rest, Block.read none {} [⟨.eos, ⟨1, 1⟩⟩, ⟨.outdent, ⟨1, 1⟩⟩] = .ok (tree, rest)) ∨
      ∃ d, Block.read none {} [⟨.eos, ⟨1, 1⟩⟩, ⟨.outdent, ⟨1, 1⟩⟩] = .error (.refused d) ∧
        d.category ≠ .endOfStream ∧ d.file = none ∧
        ∃ t ∈ [⟨.eos, ⟨1, 1⟩⟩, (⟨.outdent, ⟨1, 1⟩⟩ : Token)], d.position = t.position) ∧
    ∃ d, Block.read none {} [⟨.tag "p", ⟨1, 1⟩⟩, ⟨.startAttributes, ⟨1, 2⟩⟩] =
      .error (.refused d) :=
  ⟨(read_terminated none _).1 ⟨_, List.mem_cons_self, rfl⟩,
    (read_terminated none _).2 (by decide)⟩

end PugTemplate
