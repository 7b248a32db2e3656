import PugTemplate.Proofs.Token.Interpolations
import PugTemplate.Proofs.Token.TagLines
/-!
# Values of choices

The value behind the word for a choice is cut at its first colon, and put together again as long as
something is open before the colon. So a colon in a string or in brackets belongs to the value. Two
colons next to each other do not: there is nothing between them, and the value ends before them.
-/

namespace PugTemplate

open List Pattern Option

def ColonsApart (cs : List Char) : Prop := cs.IsChain fun c d => ¬(c = ':' ∧ d = ':')

instance (cs : List Char) : Decidable (ColonsApart cs) := inferInstanceAs (Decidable (List.IsChain _ _))

theorem colonsApart_cons {c : Char} {cs : List Char} (h : ':' ∉ cs) : ColonsApart (c :: cs) := by
  induction cs generalizing c with
  | nil => exact .singleton c
  | cons d cs ih =>
    obtain ⟨hd, hc⟩ := ne_and_not_mem_of_not_mem_cons h
    exact .cons_cons (fun hb => hd hb.2.symm) (ih hc)

theorem Nesting.State.stack_push_colon {s t : State} (h : s.push ':' = some t) :
    t.stack = s.stack := by
  obtain ⟨next, hn, rfl⟩ := map_eq_some_iff.mp h
  have hs : (s.settleRegex ':').stack = s.stack := by
    unfold settleRegex
    split <;> rfl
  rw [← hs]
  unfold inContext at hn
  split at hn
  case h_6 =>
    cases hn
    unfold inTemplate
    simp
  all_goals
    cases hn
    simp [inQuotes]

theorem isClosed_append {front back : List Char} (h : IsClosed (front ++ back)) :
    ∃ t, ({} : Nesting.State).pushAll front = some t ∧ ∃ u, t.pushAll back = some u ∧ u.stack = [] := by
  obtain ⟨u, hu, hs⟩ := h
  rw [Nesting.State.pushAll_append, bind_eq_some_iff] at hu
  obtain ⟨t, ht, hu⟩ := hu
  exact ⟨t, ht, u, hu, hs⟩

/-- A value whose colons are all inside of something that is open. -/
structure KeepsColons (value : List Char) : Prop where
  closed : IsClosed value
  nested : ∀ i < value.length, value[i]? = some ':' → ¬IsClosed (value.take i)
  line : '\n' ∉ value

theorem KeepsColons.not_isClosed {value front back : List Char} (h : KeepsColons value)
    (hc : value = front ++ ':' :: back) : ¬IsClosed front := by
  have ho := h.nested front.length (by simp [hc]) (by simp [hc])
  rwa [hc, take_left] at ho

theorem KeepsColons.ne_nil {value front back : List Char} (h : KeepsColons value)
    (hc : value = front ++ ':' :: back) : back ≠ [] := by
  rintro rfl
  obtain ⟨t, ht, u, hu, hs⟩ := isClosed_append (hc ▸ h.closed)
  rw [Nesting.State.pushAll_cons, bind_eq_some_iff] at hu
  obtain ⟨next, hn, hu⟩ := hu
  cases hu
  exact h.not_isClosed hc ⟨t, ht, by rw [← Nesting.State.stack_push_colon hn, hs]⟩

namespace Setting

variable {env : Setting} {value more : List Char} {s : Lexer} {after : List Char}

theorem exists_colon_cut {cs : List Char} (h : '\n' ∉ cs) :
    ∃ part rest, cs = part ++ rest ∧ ':' ∉ part ∧ part.takeWhile isWhenPart = part ∧
      ∀ c ∈ rest.head?, c = ':' := by
  refine ⟨cs.takeWhile isWhenPart, cs.dropWhile isWhenPart,
    (takeWhile_append_dropWhile ..).symm, fun hm => ?_, takeWhile_idem, fun c hc => ?_⟩
  · exact absurd (mem_takeWhile_imp hm) (by decide)
  · have hs : isWhenPart c = false := by
      have hh := head?_dropWhile_not isWhenPart cs
      rw [hc] at hh
      exact hh
    have hb : c ≠ '\n' := by
      rintro rfl
      exact h ((dropWhile_suffix _).subset (mem_of_mem_head? hc))
    simpa [isWhenPart, hb] using hs

theorem head_isWhenPart {rest : List Char} (hr : ∀ c ∈ rest.head?, c = ':')
    (hm : ∀ c ∈ more.head?, c = ':') : ∀ c ∈ (rest ++ more).head?, isWhenPart c = false := by
  have hco : ∀ c ∈ (rest ++ more).head?, c = ':' := by
    cases rest with
    | nil => exact hm
    | cons d rest => exact hr
  exact fun c hc => by rw [hco c hc]; rfl

theorem consume_consume (s : Lexer) (n m : Nat) :
    (((s.consume n).advanceColumn n).consume m).advanceColumn m =
      (s.consume (n + m)).advanceColumn (n + m) := by
  simp [Lexer.consume, Lexer.advanceColumn, Nat.add_assoc]

/-- **The value goes on** up to its end, or to the first two colons next to each other. The induction
is on the length of what is left of it: a step reads a colon and the characters up to the next one. -/
theorem continueWhen_eq (hv : KeepsColons value) (hm : ∀ c ∈ more.head?, c = ':')
    {front back : List Char} (hc : value = front ++ back) (hb : ∀ c ∈ back.head?, c = ':')
    (hf : ColonsApart front) (hla : front.getLast? ≠ some ':') :
    ∃ grown left, back = grown ++ left ∧ ColonsApart (front ++ grown) ∧
      (left = [] ∨ ∃ after, left = ':' :: ':' :: after) ∧
      ∀ (s : Lexer) (n : Nat), s.rest = back ++ more → s.rest.length < n →
        env.continueWhen n front s = .ok (front ++ grown,
          (s.consume grown.length).advanceColumn grown.length) := by
  induction hl : back.length using Nat.strong_induction_on generalizing front back with
  | _ k ih =>
  subst hl
  obtain ⟨t, ht, u, hu, hsta⟩ := isClosed_append (hc ▸ hv.closed)
  have hsc : Nesting.scan front = .ok t := Nesting.State.scanFrom_eq_ok_iff.mpr ht
  cases back with
  | nil =>
    obtain rfl : t = u := some.inj hu
    refine ⟨[], [], rfl, by rwa [append_nil], .inl rfl, fun s n _ _ => ?_⟩
    cases n <;> simp [continueWhen, hsc, Nesting.State.isNesting, Nesting.State.isString,
      Nesting.State.current, hsta, Lexer.consume, Lexer.advanceColumn]
  | cons c back =>
    obtain rfl : c = ':' := hb c rfl
    have ho : t.stack ≠ [] := fun hni => hv.not_isClosed hc ⟨t, ht, hni⟩
    obtain ⟨part, rest, rfl, hp, hpa, hr⟩ := @exists_colon_cut back fun hme =>
      hv.line (by rw [hc]; simp [hme])
    have hh := head_isWhenPart hr hm
    have hst (s : Lexer) (n : Nat) (hs : s.rest = ':' :: (part ++ rest) ++ more) :
        env.continueWhen (n + 1) front s =
          if part.isEmpty then .ok (front, s)
          else env.continueWhen n (front ++ ':' :: part)
            ((s.consume (part.length + 1)).advanceColumn (part.length + 1)) := by
      rw [continueWhen, hsc]
      simp [Nesting.State.isNesting, ho, hs, takeWhile_append_eq hpa hh]
    cases part with
    | nil =>
      -- nothing stands between this colon and the next one
      obtain ⟨d, after, rfl⟩ := exists_cons_of_ne_nil (hv.ne_nil hc)
      obtain rfl : d = ':' := hr d rfl
      refine ⟨[], _, rfl, by rwa [append_nil], .inr ⟨after, rfl⟩, fun s n hs hn => ?_⟩
      cases n with
      | zero => exact absurd hn (Nat.not_lt_zero _)
      | succ n =>
        rw [hst s n hs, append_nil]
        rfl
    | cons d part =>
      have hch : ColonsApart (front ++ ':' :: d :: part) := by
        refine isChain_append.mpr ⟨hf, colonsApart_cons hp, ?_⟩
        rintro x hx y - ⟨rfl, -⟩
        exact hla hx
      have hen : (front ++ ':' :: d :: part).getLast? ≠ some ':' := by
        rw [getLast?_append]
        exact fun h => hp (some.inj h ▸ getLast_mem _)
      obtain ⟨grown, left, rfl, ha, hle, hre⟩ :=
        @ih rest.length (by simp only [length_cons, length_append]; omega)
          (front ++ ':' :: d :: part) rest (by rw [hc]; simp) hr hch hen rfl
      refine ⟨':' :: d :: part ++ grown, left, by simp, by simpa using ha, hle, fun s n hs hn => ?_⟩
      cases n with
      | zero => exact absurd hn (Nat.not_lt_zero _)
      | succ n =>
        have hd : s.rest.drop ((d :: part).length + 1) = grown ++ left ++ more := by
          rw [hs, cons_append, append_assoc, drop_succ_cons, drop_left]
        have hste : (s.rest.drop ((d :: part).length + 1)).length < n :=
          Nat.lt_of_lt_of_le (length_drop_lt (by simp [hs]) (Nat.succ_pos _)) (Nat.lt_succ_iff.mp hn)
        have hl : (':' :: d :: part ++ grown).length = (d :: part).length + 1 + grown.length := by
          simp only [length_append, length_cons]
        rw [hst s n hs, if_neg (by simp), hre _ n hd hste, consume_consume, hl, append_assoc]

theorem advance_when (hh : env.hooks = []) (hv : KeepsColons value) (hn : value ≠ [])
    (hspa : value.head? ≠ some ' ') (hm : ∀ c ∈ more.head?, c = ':') :
    ∃ read left, value = read ++ left ∧ ColonsApart read ∧
      (left = [] ∨ ∃ after, left = ':' :: ':' :: after) ∧
      ∀ s : Lexer, s.rest = "when ".toList ++ (value ++ more) →
        let next := (s.consume (5 + read.length)).advanceColumn (5 + read.length)
        env.advance s = (do
          env.requireExpression read (valueStart next read)
          pure (true, next.pushAt (.when (String.ofList read)) s.position)) := by
  obtain ⟨part, rest, rfl, hp, hpa, hr⟩ := exists_colon_cut hv.line
  -- nothing is open at the front of a value, so no colon stands there
  have hf : part ≠ [] := by
    rintro rfl
    obtain ⟨d, after, rfl⟩ := exists_cons_of_ne_nil hn
    obtain rfl : d = ':' := hr d rfl
    exact @KeepsColons.not_isClosed _ [] _ hv rfl ⟨{}, rfl, rfl⟩
  obtain ⟨d, part, rfl⟩ := exists_cons_of_ne_nil hf
  have hd : d ≠ ' ' := by
    rintro rfl
    exact hspa rfl
  have hsp : spacedValue? isWhenPart (' ' :: (d :: part ++ (rest ++ more))) =
      some ([' '], d :: part) := by
    have hta := takeWhile_append_eq hpa (head_isWhenPart hr hm)
    rw [cons_append] at hta ⊢
    simp [spacedValue?, hd, hta]
  obtain ⟨grown, left, rfl, ha, hl, hre⟩ := @continueWhen_eq env _ more hv hm
    (d :: part) rest rfl hr (colonsApart_cons fun h => hp (mem_cons_of_mem _ h))
    fun h => hp (mem_of_getLast? h)
  refine ⟨d :: part ++ grown, left, by rw [append_assoc], ha, hl, fun s hs => ?_⟩
  have hw : wordValue? "when" isWhenPart s = some (d :: part,
      (s.consume (5 + (d :: part).length)).advanceColumn (5 + (d :: part).length)) := by
    have haf : afterWord? "when" s.rest = some (' ' :: (d :: part ++ (grown ++ left ++ more))) := by
      rw [hs, append_assoc]
      rfl
    rw [wordValue?, haf]
    show (spacedValue? _ _).bind _ = _
    rw [hsp]
    rfl
  have hr : s.rest.drop (5 + (d :: part).length) = grown ++ left ++ more := by
    rw [hs, append_assoc, ← append_assoc]
    exact drop_left' (by simp; omega)
  have hfi : env.rules.filter (·.1.fits s.rest) = [(.when, env.when), (.tag, tag)] := by
    rw [hs]
    rfl
  intro next
  refine advance_eq hh [] _ hfi (by simp) ?_ fun t ht => ?_
  · dsimp only
    unfold «when»
    rw [hw]
    dsimp only
    rw [hre _ _ hr (Nat.lt_succ_self _), consume_consume, Nat.add_assoc, ← length_append]
    rfl
  · cases hva : env.requireExpression (d :: part ++ grown)
      (valueStart next (d :: part ++ grown)) with
    | error e | ok u => rw [hva] at ht; cases ht

theorem tryRules_declined (hh : env.hooks = []) {rules : List (Rule × (Lexer → Step))}
    (h : ∀ rule ∈ rules, rule.2 s = .ok (false, s)) :
    env.tryRules rules s = .error (env.unexpectedText s) := by
  induction rules with
  | nil => rfl
  | cons rule rules ih =>
    obtain ⟨hru, hr⟩ := forall_mem_cons.mp h
    rw [tryRules, call_eq hh, hru]
    exact ih hr

theorem advance_colons (hh : env.hooks = []) (hs : s.rest = ':' :: ':' :: after) :
    env.advance s = .error (env.unexpectedText s) := by
  refine tryRules_declined hh fun rule hr => ?_
  cases hfi : rule.1.fits s.rest with
  | false => exact declines hr hfi
  | true =>
    have hm : rule ∈ env.rules.filter (·.1.fits s.rest) := mem_filter.mpr ⟨hr, hfi⟩
    have hf : env.rules.filter (·.1.fits s.rest) =
        [(.filter false, env.filter false), (.colon, colon)] := by
      rw [hs]
      rfl
    rw [hf] at hm
    simp only [mem_cons, not_mem_nil, or_false] at hm
    rcases hm with rfl | rfl
    · simp [filter, hs, name?, Pattern.isNamePart, isPlainWord]
    · simp [colon, hs]

theorem refuses_colons (hh : env.hooks = []) (hen : s.ended = false)
    (hs : s.rest = ':' :: ':' :: after) (n : Nat) : Ensures (env.runSteps n s) fun _ => False := by
  cases n with
  | zero => rw [runSteps, hen]; exact .error
  | succ n => rw [runSteps_succ hh hen, advance_colons hh hs]; exact .error

theorem places_colon (hh : env.hooks = []) {cs : List Char} (hc : cs.head? ≠ some ' ')
    (indents : List Nat) (p : Position) :
    env.Places ⟨':' :: ' ' :: cs, indents, p⟩ [⟨.colon, p⟩] ⟨cs, indents, p.right 2⟩ := by
  refine .step hh (Nat.lt_add_of_pos_right (k := 2) (by decide)) fun s tokens hs =>
    ⟨_, ?_, (hs.push .colon).consume (n := 2) rfl⟩
  have hr : s.rest = ':' :: ' ' :: cs := hs.rest_eq
  have hfi : env.rules.filter (·.1.fits s.rest) =
      [(.filter false, env.filter false), (.colon, colon)] := by
    rw [hr]
    rfl
  have hf : env.filter false s = .ok (false, s) := by
    simp [filter, hr, name?, Pattern.isNamePart, isPlainWord]
  have hsp : (cs.takeWhile (· == ' ')) = [] := by
    cases cs with
    | nil => rfl
    | cons c cs => exact takeWhile_cons_of_neg (by simpa using hc)
  refine advance_eq hh [_] _ hfi (by simpa using hf) ?_ (by simp)
  simp [colon, hr, hsp]

theorem concludes_tail (hh : env.hooks = []) (hi : env.interpolated = false)
    {tail : Option TagLine}
    (ht : ∀ l ∈ tail, ∀ a ∈ l.attributes.getD [], env.validator a.literal = none) (p : Position) :
    ∃ new : List Token, new.map Token.kind = (tail.elim [] fun l => .colon :: l.kinds) ++ [.eos] ∧
      env.Concludes ⟨tail.elim [] fun l => ':' :: ' ' :: l.written, [], p⟩ (.ok new) := by
  cases tail with
  | none => exact ⟨_, rfl, ends_nil hh hi [] p⟩
  | some l =>
    obtain ⟨c, cs, hw, hc⟩ := l.head_written []
    rw [append_nil] at hw
    have hhe : l.written.head? ≠ some ' ' := by
      rw [hw]
      rintro ⟨⟩
      exact absurd hc (by decide)
    have hl := @reads_tagLine env [] hh hi l (ht l rfl) (by simp) [] (p.right 2)
    rw [TagLine.line_cells, append_nil] at hl
    have ha := ((places_colon hh hhe [] p).trans hl).ends (ends_nil hh hi [] _)
    refine ⟨_, ?_, ha⟩
    simp [Cell.kinds_tokens, TagLine.kinds_cells]

end Setting

/-- **Colons inside of a value.** A value that closes what it opens, and in which something is open
before every colon, is the whole value of its choice exactly if no two of its colons are next to each
other. A tag may follow it behind one more colon. -/
theorem tokenize_when {file : Option String} {validator : Validator} {value : String}
    {tail : Option TagLine} (hvalue : KeepsColons value.toList) (hreturn : '\r' ∉ value.toList)
    (hne : value.toList ≠ []) (hspace : value.toList.head? ≠ some ' ')
    (hvalid : validator value = none)
    (htail : ∀ l ∈ tail, ∀ a ∈ l.attributes.getD [], validator a.literal = none) :
    (tokenize { file, validator }
        ("when " ++ value ++ tail.elim "" fun l => ": " ++ String.ofList l.written)).toOption.map
          (·.map Token.kind) =
        some (.when value :: (tail.elim [] fun l => .colon :: l.kinds) ++ [.eos]) ↔
      ColonsApart value.toList := by
  let env : Setting := { file, validator }
  let outer : Setting := env.nesting maxInterpolationDepth
  have hhooks : outer.hooks = [] := Setting.hooks_nesting env _
  have hinterpolated : outer.interpolated = false := Setting.interpolated_nesting env _
  have hvalidator : outer.validator = validator := Setting.validator_nesting env _
  let more : List Char := tail.elim [] fun l => ':' :: ' ' :: l.written
  have hmore : ∀ c ∈ more.head?, c = ':' := by
    cases tail with
    | none => simp [more]
    | some l => rintro c ⟨⟩; rfl
  generalize hsource : "when " ++ value ++ (tail.elim "" fun l => ": " ++ String.ofList l.written) =
    source
  have htext : source.toList = "when ".toList ++ (value.toList ++ more) := by
    rw [← hsource]
    cases tail <;> simp [more]
  have hnormal : normalize source = source.toList := by
    have hmoreReturn : '\r' ∉ more := by
      cases tail with
      | none => simp [more]
      | some l => simp [more, l.not_mem_written]
    refine normalize_eq htext (by decide) ?_
    rw [htext]
    simp [hreturn, hmoreReturn]
  obtain ⟨read, left, hcut, hapart, hleft, hadvance⟩ :=
    Setting.advance_when hhooks hvalue hne hspace hmore
  have hrest : source.toList.drop (5 + read.length) = left ++ more := by
    rw [htext, hcut, List.append_assoc, ← List.append_assoc]
    exact List.drop_left' (by simp; omega)
  rcases hleft with rfl | ⟨after, rfl⟩
  · rw [List.append_nil] at hcut
    subst hcut
    rw [String.ofList_toList] at hadvance
    have hwhen : outer.Places ⟨source.toList, [], ⟨1, 1⟩⟩ [⟨.when value, ⟨1, 1⟩⟩]
        ⟨more, [], Position.right ⟨1, 1⟩ (5 + value.toList.length)⟩ := by
      refine .step hhooks (by simp [htext]; omega) fun s tokens hs =>
        ⟨_, ?_, (hs.push (.when value)).consume (n := 5 + value.toList.length) ?_⟩
      · rw [hadvance s (hs.rest_eq.trans htext), Setting.requireExpression, String.ofList_toList,
          show outer.validator value = none from hvalidator ▸ hvalid]
        rfl
      · exact hrest
    obtain ⟨new, hkinds, hconcludes⟩ := Setting.concludes_tail hhooks hinterpolated
      (hvalidator ▸ htail) (Position.right ⟨1, 1⟩ (5 + value.toList.length))
    have htokens := hwhen.ends hconcludes
    rw [← hnormal] at htokens
    rw [htokens.tokenize]
    exact iff_of_true (by simp [Except.toOption, Except.map, hkinds]) hapart
  · have hfails : Ensures (tokenize env source) fun _ => False := by
      refine .bind (P := fun _ => False) ?_ fun _ h => h.elim
      rw [hnormal, Setting.run, Setting.runSteps_succ hhooks rfl, hadvance _ htext]
      refine Ensures.bind (.bind .any fun _ _ => .ok rfl) fun out hout => ?_
      exact hout ▸ Setting.refuses_colons hhooks rfl hrest _
    have hpair : ¬ColonsApart value.toList := by
      rw [hcut]
      exact fun h => (List.isChain_cons_cons.mp (List.isChain_append.mp h).2.1).1 ⟨rfl, rfl⟩
    refine iff_of_false (fun htokens => ?_) hpair
    cases hout : tokenize env source with
    | ok tokens => exact hfails tokens hout
    | error d => rw [hout] at htokens; cases htokens

/-- Colons in a string and in brackets, and a tag behind the value. -/
theorem tokenize_when_nested :
    (tokenize { validator := fun _ => none }
        "when ':' + \x7ba: (b ? ':' : c)\x7d: p.q(r='s') t").toOption.map (·.map Token.kind) =
      some [.when "':' + \x7ba: (b ? ':' : c)\x7d", .colon, .tag "p", .class "q", .startAttributes,
        .attribute "r" (.expression "'s'") true, .endAttributes, .text "t", .eos] := by
  let tail : TagLine := { name := "p", classes := ["q"],
                          attributes := some [{ name := "r", value := "s" }], text := some "t" }
  have htokens := (@tokenize_when none (fun _ => none) "':' + \x7ba: (b ? ':' : c)\x7d" (some tail)
    ⟨by decide +kernel, by decide +kernel, by decide +kernel⟩ (by decide +kernel) (by decide +kernel)
    (by decide +kernel) rfl fun _ _ _ _ => rfl).mpr (by decide +kernel)
  have hsource : "when " ++ "':' + \x7ba: (b ? ':' : c)\x7d" ++ (": " ++ String.ofList tail.written) =
      "when ':' + \x7ba: (b ? ':' : c)\x7d: p.q(r='s') t" := by decide +kernel
  rw [Option.elim_some, hsource] at htokens
  exact htokens.trans (by decide +kernel)

/-- Two colons in a string end the value before them. -/
theorem tokenize_when_colons :
    (tokenize { validator := fun _ => none } "when '::'").toOption = none := by
  decide +kernel

end PugTemplate
