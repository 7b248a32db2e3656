import PugTemplate.Proofs.Node.Productions.Basic
/-!
# The productions of tags and text

What the productions leave that stand on one line or hold text.
-/

namespace PugTemplate

open List

def TokenKind.startsText : TokenKind → Bool
  | .text _ => true
  | .interpolatedCode _ _ _ => true
  | .startInterpolation => true
  | _ => false

/-- A token that a tag without a name starts with. -/
def TokenKind.StartsTag (k : TokenKind) : Prop :=
  (∃ name, k = .id name) ∨ ∃ name, k = .class name

namespace TreeReading

open TreeSetting

variable {e : TreeReading} {n : Nat} {t : Token} {ts rest : TokenStream}

attribute [local simp] TokenKind.isText TokenKind.isInert TokenKind.isHeadPart TokenKind.startsText
  TokenKind.startsLine

/-! ## Attributes -/

theorem leaves_attributeRun (fuel : Nat) (names : Option (List String)) (acc : List Attribute)
    (hts : e.On ts) (hf : ts.length < fuel) :
    e.Leaves (e.attributeRun fuel names acc) ts fun _ =>
      Front (fun k => k.isInert && k.isHeadPart) ts := by
  induction fuel generalizing names acc ts with
  | zero => exact absurd hf (Nat.not_lt_zero _)
  | succ fuel ih =>
    refine leaves_peek hts ?_
    rintro t tail rfl
    split
    · rename_i hk
      -- Every branch that goes on has taken this attribute.
      have hn names acc := (ih names acc (hts.tail (by simp [hk]))
        (Nat.lt_of_succ_lt_succ hf)).mono fun _ rest h =>
          h.cons (t := t) (by simp [hk])
      refine leaves_advance ?_
      split
      · exact hn _ _
      · split
        · exact leaves_fail (by rintro ⟨⟩) hts.place
        · exact hn _ _
    · exact .pure .nil

theorem leaves_attributes (names : Option (List String)) (hts : e.On ts) :
    e.Leaves (e.attributes names) ts fun _ rest =>
      Front (fun k => k.isInert && k.isHeadPart) ts rest ∧ rest.length < ts.length := by
  refine leaves_expect hts ?_
  rintro first tail rfl hf
  have hf : first.kind = .startAttributes := (Token.name_eq_iff rfl).mp hf
  have ht := hts.tail (by simp [hf])
  refine leaves_budget ((leaves_attributeRun _ names [] ht (Nat.lt_succ_self _)).bind
    fun result mid hm => ?_)
  have hs : e.Skips tail mid := hm.skips rfl
  refine leaves_expect (hs.on ht) ?_
  rintro last rest rfl hl
  have hl : last.kind = .endAttributes := (Token.name_eq_iff rfl).mp hl
  refine .pure ⟨.cons ?_ (hm.append (.cons ?_ .nil)), Nat.lt_succ_of_lt hs.length⟩
  · simp [hf]
  · simp [hl]

theorem leaves_looseAttributes (hts : e.On ts) :
    e.Leaves e.looseAttributes ts fun _ => Front TokenKind.isInert ts := by
  refine leaves_peek hts fun t tail ht => ?_
  split
  · exact (leaves_attributes none hts).bind fun _ rest h =>
      .pure (h.1.mono fun k hk => (Bool.and_eq_true_iff.mp hk).1)
  · exact .pure .nil

/-- The attributes of a tag are parts of its head, and include an id or a class that it starts with.
They leave the content of the tag as it is. -/
theorem leaves_tagAttributes (hen : e.Supported n) (fuel : Nat) (names : List String)
    (draft : TagDraft) (hts : e.On ts) (hf : ts.length < fuel) :
    e.Leaves (e.tagAttributes fuel names draft) ts fun result rest =>
      result.body = draft.body ∧ Front TokenKind.isHeadPart ts rest ∧
        ∀ t ∈ ts.head?, t.kind.StartsTag → rest.length < ts.length := by
  induction fuel generalizing names draft ts with
  | zero => exact absurd hf (Nat.not_lt_zero _)
  | succ fuel ih =>
    have hne {mid} (names) (more : TagDraft) (hm : Front TokenKind.isHeadPart ts mid)
        (hl : mid.length < ts.length) (hb : more.body = draft.body) :
        e.Leaves (e.tagAttributes fuel names more) mid fun result rest =>
          result.body = draft.body ∧ Front TokenKind.isHeadPart ts rest ∧
            ∀ t ∈ ts.head?, t.kind.StartsTag → rest.length < ts.length := by
      have hf := Nat.lt_of_lt_of_le hl (Nat.le_of_lt_succ hf)
      refine (ih names more ((hm.skips rfl).on hts) hf).mono fun _ rest h =>
        ⟨h.1.trans hb, hm.append h.2.1, fun _ _ _ => ?_⟩
      exact Nat.lt_of_le_of_lt (h.2.1.skips (e := e) rfl).length hl
    refine leaves_peek hts ?_
    rintro t tail rfl
    have ho (hki : t.kind.isHeadPart) (names) (more : TagDraft) :=
      hne names more (.cons hki .nil) (Nat.lt_succ_self tail.length)
    split
    · rename_i hki
      refine leaves_advance ?_
      split
      · exact leaves_fail (by rintro ⟨⟩) hts.place
      · exact ho (by simp [hki]) _ _ rfl
    · rename_i hki
      exact leaves_advance (ho (by simp [hki]) _ _ rfl)
    · exact (leaves_attributes _ hts).bind fun result mid hm =>
        hne _ _ (hm.1.mono fun k hk => (Bool.and_eq_true_iff.mp hk).2) hm.2 rfl
    · rename_i hki
      exact leaves_advance (ho (by simp [hki]) _ _ rfl)
    · rename_i hi hc _ _
      simp only [hookTag, hen.plugins, Plugins.tag?, lookup_nil, pure_bind]
      refine .pure ⟨rfl, .nil, ?_⟩
      rintro u ⟨⟩ (⟨name, hn⟩ | ⟨name, hn⟩)
      · exact absurd hn (hi name)
      · exact absurd hn (hc name)

/-! ## Text -/

theorem leaves_interpolatedTag (hen : e.Supported n) (ht : t.kind = .startInterpolation)
    (hts : e.On (t :: ts)) (hn : ts.length ≤ n) :
    e.Leaves e.interpolatedTag ts (e.Takes (t :: ts)) := by
  have hta := hts.tail (by simp [ht])
  refine (leaves_expression hen hta hn).bind fun node mid hno => ?_
  refine leaves_expect (hno.on hta) ?_
  rintro u rest rfl hu
  have hk : t.kind.Encloses u.kind := .inr (.inl ⟨ht, (Token.name_eq_iff rfl).mp hu⟩)
  exact .pure ⟨hno.enclosed hk, Nat.lt_succ_of_lt hno.length⟩

section Code

variable {source : String} {escape buffer : Bool} (hts : e.On (t :: ts))
include hts

theorem takes_inlineCode (ht : t.kind = .interpolatedCode source escape buffer) :
    e.Takes (t :: ts) (e.inlineCode source escape buffer t.position) ts :=
  hts.takes (by simp [ht]) .refl (.code (.inr ht) ⟨rfl, rfl, rfl, rfl⟩) rfl fun _ => .nil

theorem takes_lineCode (ht : t.kind = .code source escape buffer) :
    e.Takes (t :: ts) (e.lineCode source escape buffer t.position) ts :=
  hts.takes (by simp [ht]) .refl (.code (.inl ht) ⟨rfl, rfl, rfl, rfl⟩) rfl fun _ => .nil

end Code

theorem leaves_textNodes (hen : e.Supported n) (multiline : Bool) (fuel : Nat) {before : List Node}
    (hts : e.On ts) (hf : ts.length < fuel) (hn : ts.length ≤ n + 1) :
    e.Leaves (e.textNodes multiline fuel before) ts fun nodes rest => e.Adds ts before nodes rest ∧
      ∀ t ∈ ts.head?, t.kind.startsText → rest.length < ts.length := by
  refine leaves_loop (Q := fun before ts nodes rest => e.Adds ts before nodes rest ∧
    ∀ t ∈ ts.head?, t.kind.startsText → rest.length < ts.length)
    (fun fuel before ts hts hn hlo => ?_) fuel hts hf hn
  have hne {a more mid} (ha : e.Derives ts (.nodes a) mid) (hl : mid.length < ts.length)
      (hm : more = before ++ a) :=
    hlo more (ha.on hts) hl fun nodes rest h =>
      ⟨(hm ▸ h.1).after ha, fun _ _ _ => Nat.lt_of_le_of_lt h.1.skips.length hl⟩
  refine leaves_peek hts ?_
  rintro t tail rfl
  -- A run ends at a token that is not one of text.
  have hs (hk : t.kind.startsText = false) : ∀ u ∈ (t :: tail).head?,
      u.kind.startsText → (t :: tail).length < (t :: tail).length := by
    rintro u ⟨⟩ hu
    rw [hk] at hu
    cases hu
  split
  · rename_i text hk
    exact leaves_advance (hne (.text hts (by simp [hk]) text) (Nat.lt_succ_self _) rfl)
  · rename_i hk
    have hc := takes_inlineCode hts hk
    exact leaves_advance (hne hc.toDerives hc.lt rfl)
  · rename_i hk
    have ht : t.kind.isText := by simp [hk]
    split
    · have hb := hne (.text hts ht "\n") (Nat.lt_succ_self _) rfl
      refine leaves_advance (leaves_peek ((Derives.skip ht).on hts) fun u after haf => ?_)
      split
      · exact hb
      · exact hb
      · exact hne (.skip ht) (Nat.lt_succ_self _) (append_nil _).symm
    · exact .pure ⟨.none, hs (by simp [hk])⟩
  · rename_i hk
    exact leaves_advance ((leaves_interpolatedTag hen hk hts (Nat.le_of_succ_le_succ hn)).bind
      fun node rest hno => hne hno.toDerives hno.lt rfl)
  · have hk : t.kind.startsText = false := by
      unfold TokenKind.startsText
      split <;> simp_all
    simp only [hookNodes, hen.plugins, Plugins.nodes?, lookup_nil, pure_bind]
    exact .pure ⟨.none, hs hk⟩

theorem leaves_text (hen : e.Supported n) (multiline : Bool) (hts : e.On (t :: ts))
    (hk : t.kind.startsText) (hn : ts.length ≤ n) :
    e.Leaves (e.text multiline) (t :: ts) (e.Takes (t :: ts)) := by
  refine leaves_peek hts ?_
  rintro u tail ⟨⟩
  refine leaves_budget ((leaves_textNodes hen multiline _ hts (Nat.lt_succ_self _)
    (Nat.succ_le_succ hn)).bind fun nodes rest hno => ?_)
  have hl := hno.2 t rfl hk
  have hno := hno.1.derives
  split
  · exact .pure ⟨hno, hl⟩
  · refine .pure ⟨⟨hno.toSkips, .group hno.reads, fun ready => ?_⟩, hl⟩
    exact forall_mem_singleton.mpr (.mk ⟨rfl, hts.place ready⟩ (hno.located ready))

/-! ## Markup -/

section Markup

variable {run : HtmlRun}

theorem sameButText_addLine (run : HtmlRun) (line : String) (location : Location) :
    SameButText (run.addLine line location).close run.close := by
  cases hc : run.current with
  | none | some c => simp [SameButText, HtmlRun.addLine, HtmlRun.close, hc, Node.isText]

theorem sameButText_foldl_add (nodes : List Node) (run : HtmlRun) :
    SameButText (nodes.foldl HtmlRun.add run).close (run.close ++ nodes) := by
  induction nodes generalizing run with
  | nil => simp [SameButText]
  | cons node nodes ih =>
    have ha : SameButText (run.add node).close (run.close ++ [node]) := by
      unfold HtmlRun.add
      split
      · next text location =>
        have hl := sameButText_addLine run text location
        simpa [SameButText, Node.isText] using hl
      · simp [SameButText, HtmlRun.addNode, HtmlRun.close]
    have hs := ha.append (c := nodes) rfl
    rw [append_assoc] at hs
    exact (ih (run.add node)).trans hs

theorem stands_addLine (hr : Throughout e.Stands run.close) (line : String)
    {location : Location} (hl : location.IsIn e.file e.place) :
    Throughout e.Stands (run.addLine line location).close := by
  obtain ⟨nodes, _ | ⟨text, start⟩⟩ := run
  · exact hr.add (.mk hl Throughout.nil)
  · obtain ⟨hn, hla⟩ := forall_mem_append.mp hr
    have hs := (forall_mem_singleton.mp hla).here
    exact Throughout.add hn (.mk hs Throughout.nil)

theorem stands_foldl_add (hr : Throughout e.Stands run.close) {nodes : List Node}
    (hn : Throughout e.Stands nodes) :
    Throughout e.Stands (nodes.foldl HtmlRun.add run).close := by
  induction nodes generalizing run with
  | nil => exact hr
  | cons node nodes ih =>
    obtain ⟨hno, hn⟩ := forall_mem_cons.mp hn
    refine ih ?_ hn
    unfold HtmlRun.add
    split
    · exact stands_addLine hr _ hno.here
    · exact hr.add hno

/-- Markup has been read after a run of it. Up to texts, its nodes follow those of the run. -/
structure AddsHtml (e : TreeReading) (ts : TokenStream) (run result : HtmlRun)
    (rest : TokenStream) : Prop where
  reads : ∃ new, SameButText result.close (run.close ++ new) ∧ Reads e.inMixin ts (.nodes new) rest
  located : e.ready → Throughout e.Stands run.close → Throughout e.Stands result.close
  skips : e.Skips ts rest

theorem AddsHtml.after {mid : TokenStream} {more result : HtmlRun} {a : List Node}
    (h : AddsHtml e mid more result rest) (ha : e.Derives ts (.nodes a) mid)
    (hs : SameButText more.close (run.close ++ a))
    (hl : e.ready → Throughout e.Stands run.close →
      Throughout e.Stands more.close) : AddsHtml e ts run result rest := by
  obtain ⟨new, hn, hr⟩ := h.reads
  have hm := hs.append (c := new) rfl
  rw [append_assoc] at hm
  exact ⟨⟨_, hn.trans hm, ha.reads.append hr⟩,
    fun ready hru => h.located ready (hl ready hru), ha.toSkips.trans h.skips⟩

theorem leaves_htmlRun (hen : e.Supported n) (fuel : Nat) (hts : e.On ts)
    (hf : ts.length < fuel) (hn : ts.length ≤ n) :
    e.Leaves (e.htmlRun fuel run) ts (AddsHtml e ts run) := by
  refine leaves_loop (Q := fun run ts => AddsHtml e ts run)
    (fun fuel run ts hts hn hl => ?_) fuel hts hf hn
  have hne {a mid} {more : HtmlRun} (ha : e.Derives ts (.nodes a) mid)
      (hle : mid.length < ts.length) (hs : SameButText more.close (run.close ++ a))
      (hm : e.ready → Throughout e.Stands run.close → Throughout e.Stands more.close) :=
    hl _ (ha.on hts) hle fun result rest h => h.after ha hs hm
  refine leaves_peek hts ?_
  rintro t tail rfl
  split
  · rename_i line hk
    refine leaves_advance (hne (.skip (by simp [hk])) (Nat.lt_succ_self _)
      ?_ fun ready hr => stands_addLine hr line ⟨rfl, hts.place ready⟩)
    simpa using sameButText_addLine run line (e.location t.position)
  · exact (leaves_block hen hts hn).bind fun body rest hb =>
      hne hb.derives hb.lt (sameButText_foldl_add body.nodes run)
        fun ready hr => stands_foldl_add hr (hb.derives.located ready)
  · rename_i hk
    have hc := takes_lineCode hts hk
    exact leaves_advance (hne hc.toDerives hc.lt (by simp [SameButText, HtmlRun.addNode,
      HtmlRun.close]) fun ready hr => hr.append (hc.located ready))
  · rename_i hk
    exact leaves_advance (hne (.skip (by simp [hk])) (Nat.lt_succ_self _)
      (by simp [SameButText]) fun _ => id)
  · exact .pure ⟨⟨[], by simp [SameButText], .nil⟩, fun _ => id, .refl⟩

theorem leaves_textHtml (hen : e.Supported n) (hts : e.On (t :: ts)) {line : String}
    (hk : t.kind = .textHtml line) (hn : ts.length ≤ n) :
    e.Leaves e.textHtml (t :: ts) fun nodes rest =>
      e.Derives (t :: ts) (.nodes nodes) rest ∧ rest.length < (t :: ts).length := by
  have hr : e.Leaves (e.htmlRun ((t :: ts).length + 1) {}) (t :: ts)
      (AddsHtml e ts (HtmlRun.addLine {} line (e.location t.position))) := by
    refine leaves_peek hts ?_
    rintro u tail ⟨⟩
    simp only [hk]
    exact leaves_advance (leaves_htmlRun hen _ (hts.tail (by simp [hk])) (Nat.lt_succ_self _) hn)
  refine leaves_budget (hr.bind fun run rest hr => .pure ?_)
  obtain ⟨new, hsa, hre⟩ := hr.reads
  have hs : e.Derives (t :: ts) (.nodes []) ts := .skip (by simp [hk])
  have hl := sameButText_addLine {} line (e.location t.position)
  refine ⟨⟨hs.toSkips.trans hr.skips, ?_, fun ready => hr.located ready ?_⟩,
    Nat.lt_succ_of_le hr.skips.length⟩
  · exact (hs.reads.append hre).retext (hsa.trans (hl.append rfl)).symm
  · exact stands_addLine .nil line ⟨rfl, hts.place ready⟩

end Markup

/-! ## Blocks of text and of code -/

theorem leaves_textBlockNodes (hen : e.Supported n) (fuel : Nat) {before : List Node}
    (hts : e.On ts) (hf : ts.length < fuel) (hn : ts.length ≤ n + 1) :
    e.Leaves (e.textBlockNodes fuel before) ts fun nodes rest =>
      ∃ last, last.kind = .endPipelessText ∧ e.Adds ts before nodes (last :: rest) := by
  refine leaves_loop (Q := fun before ts nodes rest =>
    ∃ last, last.kind = .endPipelessText ∧ e.Adds ts before nodes (last :: rest))
    (fun fuel before ts hts hn hl => ?_) fuel hts hf hn
  have hne {a mid} (ha : e.Derives ts (.nodes a) mid) (hle : mid.length < ts.length) :=
    hl _ (ha.on hts) hle fun nodes rest h => h.imp fun last h => ⟨h.1, h.2.after ha⟩
  refine leaves_peek hts ?_
  rintro t tail rfl
  split
  · rename_i hk
    exact leaves_advance (.pure ⟨t, hk, .none⟩)
  · rename_i text hk
    exact leaves_advance (hne (.text hts (by simp [hk]) text) (Nat.lt_succ_self _))
  · rename_i hk
    exact leaves_advance (hne (.text hts (by simp [hk]) "\n") (Nat.lt_succ_self _))
  · rename_i hk
    exact leaves_advance ((leaves_interpolatedTag hen hk hts (Nat.le_of_succ_le_succ hn)).bind
      fun node rest hno => hne hno.toDerives hno.lt)
  · rename_i hk
    have hc := takes_inlineCode hts hk
    exact leaves_advance (hne hc.toDerives hc.lt)
  · simp only [hookNodes, hen.plugins, Plugins.nodes?, lookup_nil, pure_bind]
    exact leaves_fail (by rintro ⟨⟩) hts.place

theorem leaves_textBlock? (hen : e.Supported n) (hts : e.On ts) (hn : ts.length ≤ n + 1) :
    e.Leaves e.textBlock? ts fun body rest => (body = none ∧ rest = ts) ∨
      ∃ b, body = some b ∧ e.Derives ts (.nodes b.nodes) rest ∧
        (e.ready → b.location.IsIn e.file e.place) := by
  refine leaves_accept hts ?_ fun _ => .pure (.inl ⟨rfl, rfl⟩)
  rintro u tail rfl hu
  have hu : u.kind = .startPipelessText := (Token.name_eq_iff rfl).mp hu
  refine leaves_budget ((leaves_textBlockNodes hen _ (hts.tail (by simp [hu]))
    (Nat.lt_succ_self _) (Nat.le_of_succ_le hn)).bind fun nodes rest hno => ?_)
  obtain ⟨last, hl, hno⟩ := hno
  exact .pure (.inr ⟨_, rfl, hno.derives.enclosed (.inr (.inr ⟨hu, hl⟩)),
    fun ready => ⟨rfl, hts.place ready⟩⟩)

theorem leaves_textBlockOrEmpty (hen : e.Supported n) (location : Location) (hts : e.On ts)
    (hn : ts.length ≤ n + 1) :
    e.Leaves (e.textBlockOrEmpty location) ts fun body rest => e.Derives ts (.nodes body.nodes) rest ∧
      (e.ready → location.IsIn e.file e.place → body.location.IsIn e.file e.place) := by
  refine (leaves_textBlock? hen hts hn).bind fun body rest hbo => .pure ?_
  obtain ⟨rfl, rfl⟩ | ⟨b, rfl, hb, hl⟩ := hbo
  · exact ⟨.nil, fun _ => id⟩
  · exact ⟨hb, fun ready _ => hl ready⟩

/-- The lines of a block of code up to its end, with the code before them. -/
theorem leaves_codeLines (hen : e.Supported n) (fuel : Nat) {before : String} (hts : e.On ts)
    (hf : ts.length < fuel) :
    e.Leaves (e.codeLines fuel before) ts fun source rest =>
      ∃ lines last, ts = lines ++ last :: rest ∧ last.kind = .endPipelessText ∧
        (∀ t ∈ lines, t.kind = .newline ∨ ∃ text, t.kind = .text text) ∧
        source = before ++ String.join (lines.map Token.codeText) := by
  refine leaves_loop (Q := fun before ts source rest =>
    ∃ lines last, ts = lines ++ last :: rest ∧ last.kind = .endPipelessText ∧
      (∀ t ∈ lines, t.kind = .newline ∨ ∃ text, t.kind = .text text) ∧
      source = before ++ String.join (lines.map Token.codeText))
    (fun fuel before ts hts hn hlo => ?_) fuel hts hf (Nat.le_refl _)
  refine leaves_next hts ?_
  rintro t tail rfl
  have hne (ht : t.kind = .newline ∨ ∃ text, t.kind = .text text) {more : String}
      (hm : more = before ++ t.codeText) := by
    refine hlo more (hts.tail ?_) (Nat.lt_succ_self tail.length) ?_
    · rcases ht with ht | ⟨text, ht⟩ <;> simp [ht]
    · rintro source rest ⟨lines, last, rfl, hla, hl, rfl⟩
      exact ⟨t :: lines, last, rfl, hla, forall_mem_cons.mpr ⟨ht, hl⟩,
        by simp [hm, String.append_assoc]⟩
  split
  · rename_i hk
    exact .pure ⟨[], t, rfl, hk, forall_mem_nil _, by simp⟩
  · rename_i text hk
    exact hne (.inr ⟨text, hk⟩) (by simp [Token.codeText, hk])
  · rename_i hk
    exact hne (.inl hk) (by simp [Token.codeText, hk])
  · simp only [hen.plugins, Plugins.blockCode?, lookup_nil]
    exact leaves_fail (by rintro ⟨⟩) hts.place

theorem leaves_blockCode (hen : e.Supported n) (ht : t.kind = .blockCode) (hts : e.On (t :: ts)) :
    e.Leaves (e.blockCode t.position) ts (e.Takes (t :: ts)) := by
  have hta := hts.tail (by simp [ht])
  refine leaves_accept hta ?_ fun hn => .pure ?_
  · rintro u tail rfl hu
    have hu : u.kind = .startPipelessText := (Token.name_eq_iff rfl).mp hu
    refine leaves_budget ((leaves_codeLines hen _ (hta.tail (by simp [hu]))
      (Nat.lt_succ_self _)).bind fun source rest hs => .pure ?_)
    obtain ⟨lines, last, rfl, hla, hl, rfl⟩ := hs
    have hf : Front TokenKind.isText (lines ++ last :: rest) (last :: rest) := by
      refine ⟨lines, rfl, fun v hv => ?_⟩
      rcases hl v hv with hv | ⟨text, hv⟩ <;> simp [hv]
    have hsk : e.Skips (u :: (lines ++ last :: rest)) rest :=
      .trans (.tail (by simp [hu])) ((hf.skips rfl).trans (.tail (by simp [hla])))
    exact hts.takes (by simp [ht]) hsk (.blockCode ht ⟨rfl, rfl, rfl, rfl⟩
      (.inr ⟨u, lines, last, rfl, hu, hl, hla, String.empty_append⟩)) rfl fun _ => .nil
  · refine hts.takes (by simp [ht]) .refl (.blockCode ht ⟨rfl, rfl, rfl, rfl⟩
      (.inl ⟨rfl, rfl, fun v hv hst => ?_⟩)) rfl fun _ => .nil
    exact hn v hv ((Token.name_eq_iff rfl).mpr hst)

/-! ## Tags and calls -/

/-- What stands on the line of a tag: nothing, or nodes behind a token that starts them. -/
structure TagLine (e : TreeReading) (ts : TokenStream) (nodes : List Node) (rest : TokenStream) :
    Prop where
  head : ∀ t ∈ ts.head?, t.kind.isHeadPart = false
  skips : e.Skips ts rest
  content : ∃ mid, Unmarked ts mid ∧ e.Derives mid (.nodes nodes) rest ∧
    ((nodes = [] ∧ rest = mid) ∨ ∃ u ∈ ts.head?, u.kind.startsLine = true)

theorem leaves_tagLine (hen : e.Supported n) (slashAllowed : Bool) {draft : TagDraft}
    (hem : draft.body.nodes = []) (hts : e.On ts) (hn : ts.length ≤ n) :
    e.Leaves (e.tagLine slashAllowed draft) ts fun result => TagLine e ts result.body.nodes := by
  refine leaves_peek hts ?_
  rintro t tail rfl
  have ht := Nat.le_of_succ_le hn
  -- Nodes on the line of a tag start with its first token.
  have hst (hh : t.kind.isHeadPart = false) (hs : t.kind.startsLine) {nodes rest}
      (hnod : e.Derives (t :: tail) (.nodes nodes) rest) :
      TagLine e (t :: tail) (draft.body.nodes ++ nodes) rest := by
    rw [hem]
    exact ⟨by simpa using hh, hnod.toSkips, _, .inl rfl, hnod, .inr ⟨t, rfl, hs⟩⟩
  have hte (hk : t.kind.startsText) (hh : t.kind.isHeadPart = false) (hs : t.kind.startsLine) :=
    (leaves_text hen false hts hk ht).bind (f := fun node => pure
      (addToBody draft (spliced node))) fun node rest hno =>
        .pure (Q := fun result : TagDraft => TagLine e (t :: tail) result.body.nodes)
          (hst hh hs hno.spliced)
  split
  · rename_i hk
    exact hte (by simp [hk]) (by simp [hk]) (by simp [hk])
  · rename_i hk
    exact hte (by simp [hk]) (by simp [hk]) (by simp [hk])
  · rename_i hk
    exact leaves_advance (.pure (hst (by simp [hk])
      (by simp [hk]) (takes_lineCode hts hk).toDerives))
  · rename_i hk
    have hsk : e.Skips (t :: tail) tail := .tail (by simp [hk])
    refine leaves_advance ((leaves_expression hen (hsk.on hts) ht).bind
      fun node rest hno => .pure ⟨by simp [hk],
        hsk.trans hno.toSkips, tail, .inr ⟨t, rfl, .inr hk⟩, hno.asBlock _,
        .inr ⟨t, rfl, by simp [hk]⟩⟩)
  -- The tokens that end the line of a tag stay where they are.
  iterate 6
    · rename_i hk
      exact .pure ⟨by simp [hk], .refl, _, .inl rfl, hem ▸ .nil, .inl ⟨hem, rfl⟩⟩
  · split
    · rename_i hsl
      have hk : t.kind = .slash := beq_iff_eq.mp (Bool.and_eq_true_iff.mp hsl).2
      exact leaves_advance (.pure ⟨by simp [hk],
        .tail (by simp [hk]), tail, .inr ⟨t, rfl, .inl hk⟩, hem ▸ .nil,
        .inl ⟨hem, rfl⟩⟩)
    · simp only [hookTag, hen.plugins, Plugins.tag?, lookup_nil, pure_bind]
      refine leaves_peek hts ?_
      rintro u rest ⟨⟩
      exact leaves_fail (by rintro ⟨⟩) hts.place

theorem leaves_skipNewlines (fuel : Nat) (hts : e.On ts) (hf : ts.length < fuel) :
    e.Leaves (e.skipNewlines fuel) ts fun _ => e.Derives ts (.nodes []) := by
  induction fuel generalizing ts with
  | zero => exact absurd hf (Nat.not_lt_zero _)
  | succ fuel ih =>
    refine leaves_accept hts ?_ fun _ => .pure .nil
    rintro t tail rfl ht
    have ht : t.kind = .newline := (Token.name_eq_iff rfl).mp ht
    have hs : e.Derives (t :: tail) (.nodes []) tail := .skip (by simp [ht])
    exact (ih (hs.on hts) (Nat.lt_of_succ_lt_succ hf)).mono fun _ rest h => hs.append h

/-- **A tag or a call behind its name.** If there is no name, then there is an id or a class. -/
theorem leaves_tagDraft (hen : e.Supported n) (slashAllowed : Bool) (location : Location) {b : Nat}
    (hts : e.On ts) (hb : ts.length ≤ b + 1) (hn : b ≤ n)
    (hfi : ts.length ≤ b ∨ ∃ t ∈ ts.head?, t.kind.StartsTag) :
    e.Leaves (e.tagDraft slashAllowed location) ts fun draft rest =>
      e.Derives ts (.content draft.body.nodes) rest ∧ rest.length ≤ b := by
  refine leaves_budget ((leaves_tagAttributes hen _ [] _ hts (Nat.lt_succ_self _)).bind
    fun draft mid hd => ?_)
  obtain ⟨hbo, hf, hles⟩ := hd
  have hs : e.Skips ts mid := hf.skips rfl
  have hmi : mid.length ≤ b := by
    rcases hfi with h | ⟨t, ht, hst⟩
    · exact Nat.le_trans hs.length h
    · exact Nat.le_of_lt_succ (Nat.lt_of_lt_of_le (hles t ht hst) hb)
  have ho := hs.on hts
  obtain ⟨front, rfl, hf⟩ := hf
  refine leaves_accept ho ?_ fun _ => ?_
  · rintro t tail rfl ht
    have ht : t.kind = .dot := (Token.name_eq_iff rfl).mp ht
    have hta : e.Skips (t :: tail) tail := .tail (by simp [ht])
    simp only [length_cons] at hmi
    refine (leaves_tagLine hen slashAllowed (by simp [hbo]) (hta.on ho) (by omega)).bind
      fun line after hl => leaves_budget ?_
    have ha := hta.trans hl.skips
    refine (leaves_skipNewlines _ (ha.on ho) (Nat.lt_succ_self _)).bind fun _ below hbe => ?_
    have hle := (ha.trans hbe.toSkips).length
    simp only [length_cons] at hle
    refine (leaves_textBlockOrEmpty hen location (hbe.on (ha.on ho)) (by omega)).bind
      fun body rest hbo => .pure ?_
    have hc := hbe.append hbo.1
    have hr := ha.trans hc.toSkips
    refine ⟨⟨hs.trans hr, ?_, hc.located⟩, Nat.le_trans hr.length hmi⟩
    obtain ⟨inside, hm, hre, ⟨-, rfl⟩ | hsta⟩ := hl.content
    · exact .textContent hf ht hm hc.reads
    · exact .lostContent hf ht hsta hm hre.reads hc.reads
  · refine (leaves_tagLine hen slashAllowed (by simp [hbo]) ho (Nat.le_trans hmi hn)).bind
      fun line after hl => leaves_budget ?_
    refine (leaves_skipNewlines _ (hl.skips.on ho) (Nat.lt_succ_self _)).bind fun _ below hbe => ?_
    have hb' := hl.skips.trans hbe.toSkips
    obtain ⟨inside, hm, hre, -⟩ := hl.content
    have hl' := hre.append hbe
    rw [append_nil] at hl'
    refine (leaves_block? hen (hb'.on ho)
      (Nat.le_trans hb'.length (Nat.le_trans hmi hn))).bind fun body rest hbo => ?_
    obtain ⟨rfl, rfl⟩ | ⟨b, rfl, hb⟩ := hbo
    · exact .pure ⟨⟨hs.trans hb', .content hf hl.head hm hl'.reads,
        hl'.located⟩, Nat.le_trans hb'.length hmi⟩
    · have hal := hl'.append hb.derives
      have hr := hb'.trans hb.derives.toSkips
      exact .pure ⟨⟨hs.trans hr, .content hf hl.head hm hal.reads,
        hal.located⟩, Nat.le_trans hr.length hmi⟩

theorem leaves_call (hen : e.Supported n) {name : String} {arguments : Option String}
    (ht : t.kind = .call name arguments) (hts : e.On (t :: ts)) (hn : ts.length ≤ n) :
    e.Leaves (e.call name arguments t.position) ts (e.Takes (t :: ts)) := by
  refine (leaves_tagDraft hen false _ (hts.tail (by simp [ht])) (Nat.le_succ _) hn
    (.inl (Nat.le_refl _))).bind fun draft rest hd => .pure ?_
  refine hts.takes (by simp [ht]) hd.1.toSkips (.call ht rfl hd.1.reads) rfl fun ready => ?_
  split
  · exact .nil
  · exact hd.1.located ready

end TreeReading
end PugTemplate
