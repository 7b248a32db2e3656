import PugTemplate.Proofs.Script.Splicing
import PugTemplate.Proofs.Token.Interpolations
/-!
# Arguments of calls

A text in parentheses behind the name of a mixin is a list of attributes if it starts with a name and
an equals sign, and the arguments of the call otherwise. The sign may be the first character of a
comparison or of an arrow, so arguments that start with one of these behind a name are lost.
-/

namespace PugTemplate

open List Pattern Text Setting

/-- A text starts like an attribute: with a name and an equals sign, and spaces around the name. -/
def StartsAssigned (cs : List Char) : Prop :=
  ∃ blanks name spaces rest, cs = blanks ++ (name ++ (spaces ++ '=' :: rest)) ∧
    (∀ c ∈ blanks, Text.isBlank c = true) ∧ Pattern.name? name = some name ∧ ∀ c ∈ spaces, c = ' '

theorem isNamePart_of_isBlank {c : Char} (h : isBlank c) : Pattern.isNamePart c = false := by
  have hw : isPlainWord c = false := Nesting.isKeywordPart_of_isBlank h
  have hd : c ≠ '-' := by
    rintro rfl
    exact absurd h (by decide)
  simp [Pattern.isNamePart, hw, hd]

theorem dropWhile_append_eq {p : Char → Bool} {run more : List Char} (hr : ∀ c ∈ run, p c)
    (hm : ∀ c ∈ more.head?, p c = false) : (run ++ more).dropWhile p = more := by
  rw [dropWhile_append_of_pos hr]
  cases more with
  | nil => rfl
  | cons c cs => exact dropWhile_cons_of_neg (by simp [hm c rfl])

theorem isBlank_of_name? {name more : List Char} (hn : name? name = some name) :
    ∀ c ∈ (name ++ more).head?, isBlank c = false := by
  obtain ⟨c, cs, rfl⟩ := exists_cons_of_ne_nil (of_name?_eq hn).1
  rintro d ⟨⟩
  rw [← Bool.not_eq_true]
  intro hb
  have hp := isNamePart_of_mem hn (mem_cons_self ..)
  rw [isNamePart_of_isBlank hb] at hp
  cases hp

theorem looksLikeAttributes_iff {cs : List Char} : looksLikeAttributes cs ↔ StartsAssigned cs := by
  constructor
  · intro h
    unfold looksLikeAttributes at h
    dsimp only at h
    split at h
    · cases h
    · rename_i name hn
      obtain ⟨-, ⟨after, ha⟩, -⟩ := name?_cut hn
      have hse : name? name = some name := by
        simp only [name?, Option.ite_none_left_eq_some, Option.some.injEq] at hn ⊢
        rw [← hn.2, takeWhile_idem]
        exact ⟨hn.1, rfl⟩
      rw [← ha, drop_left, beq_iff_eq] at h
      obtain ⟨rest, hr⟩ := head?_eq_some_iff.mp h
      refine ⟨cs.takeWhile isBlank, name, after.takeWhile (· == ' '), rest, ?_, ?_, hse, ?_⟩
      · rw [← hr, takeWhile_append_dropWhile, ha]
        exact (takeWhile_append_dropWhile ..).symm
      · exact fun c hc => mem_takeWhile_imp hc
      · exact fun c hc => by simpa using mem_takeWhile_imp hc
  · rintro ⟨blanks, name, spaces, rest, rfl, hb, hn, hs⟩
    have hen : ∀ c ∈ (spaces ++ '=' :: rest).head?, Pattern.isNamePart c = false := by
      cases spaces with
      | nil => rintro c ⟨⟩; decide
      | cons d spaces =>
        rintro c ⟨⟩
        rw [hs d (mem_cons_self ..)]
        decide
    have ht : trimStart (blanks ++ (name ++ (spaces ++ '=' :: rest))) =
        name ++ (spaces ++ '=' :: rest) := dropWhile_append_eq hb (isBlank_of_name? hn)
    have hd : (spaces ++ '=' :: rest).dropWhile (· == ' ') = '=' :: rest :=
      dropWhile_append_eq (by simpa using hs) (by rintro c ⟨⟩; decide)
    simp [looksLikeAttributes, ht, name?_append hn hen, hd]

namespace Setting

variable {env : Setting} {depth : Nat} {s : Lexer} {name arguments : List Char}

theorem callName_eq {more : List Char} (hr : s.rest = '+' :: (name ++ '(' :: more))
    (hn : name? name = some name) :
    env.callName s = .ok (some (String.ofList name,
      (s.consume (1 + name.length)).advanceColumn (1 + name.length))) := by
  have hh := @isBlank_of_name? name ('(' :: more) hn
  have hf : name? (name ++ '(' :: more) = some name :=
    name?_append hn (by rintro d ⟨⟩; decide)
  have ht := @takeWhile_append_eq _ [] _ rfl hh
  have hd := @dropWhile_append_eq _ [] _ (by simp) hh
  rw [nil_append] at ht hd
  simp [callName, hr, ht, hd, hf]

/-- The text in parentheses is read as arguments, or left for the attributes. -/
theorem callArguments_eq (hr : s.rest = '(' :: (arguments ++ [')']))
    (hc : IsClosed arguments) (hl : '\n' ∉ arguments)
    (hv : env.validator (String.ofList ('[' :: arguments ++ [']'])) = none) :
    env.callArguments s = .ok (if looksLikeAttributes arguments then (none, s)
      else (some (String.ofList arguments), { s with rest := [] }.advanceColumn s.rest.length)) := by
  obtain ⟨state, hst, hsta⟩ := hc
  have hsc : Nesting.scanUntilChar ')' (arguments ++ [')']) = .ok (arguments, [')']) :=
    Nesting.State.scanUntilFrom_closer rfl [] hst hsta
  have hre : env.bracketed s 0 = .ok arguments := by simp [bracketed, hr, closer?, hsc]
  have hen : (({ s with rest := [] }.advanceColumn 1).skipOver arguments).advanceColumn 1 =
      { s with rest := [] }.advanceColumn s.rest.length := by
    rw [Lexer.skipOver_onLine _ hl, hr]
    simp [Lexer.advanceColumn]
    omega
  have hex (p : Position) : env.requireExpression ('[' :: arguments ++ [']']) p = .ok () := by
    rw [requireExpression, hv]
  have hs : (s.rest.takeWhile (· == ' ')).length = 0 := by rw [hr]; rfl
  have hp : s.rest.drop 0 = '(' :: (arguments ++ [')']) := hr
  unfold callArguments
  dsimp only
  rw [hs, hp]
  rw [hre]
  show (if _ then _ else _) = _
  split
  · rfl
  · have hd : s.consume (0 + arguments.length + 2) = { s with rest := [] } := by
      simp [Lexer.consume, hr]
    rw [hd, hex]
    exact congrArg (fun t => Except.ok (some (String.ofList arguments), t)) hen

theorem advance_call (hh : env.hooks = [])
    (hr : s.rest = '+' :: (name ++ '(' :: (arguments ++ [')'])))
    (hn : name? name = some name) (hc : IsClosed arguments)
    (hl : '\n' ∉ arguments)
    (hv : env.validator (String.ofList ('[' :: arguments ++ [']'])) = none) :
    env.advance s = .ok (true, if looksLikeAttributes arguments then
        ((s.consume (1 + name.length)).advanceColumn (1 + name.length)).pushAt
          (.call (String.ofList name) none) s.position
      else ({ s with rest := [] }.advanceColumn s.rest.length).pushAt
        (.call (String.ofList name) (some (String.ofList arguments))) s.position) := by
  have hf : env.rules.filter (·.1.fits s.rest) = [(.call, env.mixinCall)] := by
    rw [hr]
    rfl
  let next : Lexer := (s.consume (1 + name.length)).advanceColumn (1 + name.length)
  have ha : next.rest = '(' :: (arguments ++ [')']) := by
    show s.rest.drop (1 + name.length) = _
    rw [hr, Nat.add_comm, drop_succ_cons, drop_left]
  refine advance_eq hh [] _ hf (by simp) ?_ (by simp)
  dsimp only
  unfold mixinCall
  rw [callName_eq hr hn]
  show (env.callArguments next >>= _) = _
  rw [callArguments_eq ha hc hl hv]
  split
  · rfl
  · have hco : 1 + name.length + next.rest.length = s.rest.length := by
      rw [ha, hr]
      simp only [length_cons, length_append, length_nil]
      omega
    have hp : next.column + next.rest.length = s.column + s.rest.length := by
      rw [← hco, ← Nat.add_assoc]
      rfl
    exact congrArg (fun column => Except.ok (true, Lexer.pushAt { s with rest := [], column } _ _))
      hp

theorem ensures_advance_line (hh : env.hooks = []) (hn : env.Delegates depth)
    (hi : env.interpolated = false) {first : List Token}
    (hs : '\n' ∉ s.rest ∧ first <+: s.tokens.reverse) :
    Ensures (env.advance s) fun out => '\n' ∉ out.2.rest ∧ first <+: out.2.tokens.reverse := by
  let Keeps (u : Lexer) : Prop := '\n' ∉ u.rest ∧ first <+: u.tokens.reverse
  have hg {u v : Lexer} (hu : Keeps u) (hr : v.rest <:+ u.rest)
      (ht : u.tokens.reverse <+: v.tokens.reverse) : Keeps v :=
    ⟨fun hb => hu.1 (hr.subset hb), hu.2.trans ht⟩
  refine @ensures_tryRules env hh Keeps Keeps env.rules (fun rule hru u hu => ?_) s hs
  suffices hk : Ensures (rule.2 u) fun out => Keeps out.2 from
    hk.mono fun out ho => by rwa [ite_self]
  have hf : env.Fits u := fun h => absurd h (by simp [hi])
  have hm {out : Bool × Lexer} {lost : Nat} (h : Passes env depth u out lost) : Keeps out.2 := by
    obtain ⟨new, -, ht⟩ := h.tokens
    refine hg hu h.rest ⟨new, ?_⟩
    rw [ht, reverse_append, reverse_reverse]
  rcases yields_rules hh hn hru u hf with rfl | rfl | rfl | ⟨-, hp⟩
  · intro out ho
    have hr := ((yields_eos u).of_ok ho).1.rest
    dsimp only at ho
    unfold eos at ho
    split at ho
    · cases ho
      exact hu
    · split at ho
      · cases ho
      · cases ho
        refine hg hu hr (IsPrefix.trans ?_ ⟨[_], reverse_cons.symm⟩)
        exact ⟨_, (reverse_foldl_outdent u.indents u).1.symm⟩
  · dsimp only
    rw [indent_of_not_mem hu.1]
    exact .ok hu
  · exact fun out ho => hm ((yields_mixinCall u).of_ok ho)
  · exact fun out ho => hm (hp.of_ok ho)

end Setting

/-- **Arguments are not mistaken for attributes**, if they do not start like one. A text in
parentheses behind the name of a mixin, which closes what it opens and whose elements are valid, is
read as the arguments of the call exactly if no name and equals sign stand at its front. -/
theorem tokenize_call_arguments {file : Option String} {validator : Validator}
    {name arguments : String} (hname : Pattern.name? name.toList = some name.toList)
    (hclosed : IsClosed arguments.toList) (hline : '\n' ∉ arguments.toList ∧ '\r' ∉ arguments.toList)
    (hvalid : validator ("[" ++ arguments ++ "]") = none) :
    tokenize { file, validator } ("+" ++ name ++ "(" ++ arguments ++ ")") =
        .ok [⟨.call name (some arguments), ⟨1, 1⟩⟩,
          ⟨.eos, ⟨1, name.length + arguments.length + 4⟩⟩] ↔
      ¬StartsAssigned arguments.toList := by
  let env : Setting := { file, validator }
  let outer : Setting := env.nesting maxInterpolationDepth
  have hhooks : outer.hooks = [] := Setting.hooks_nesting env _
  have hinterpolated : outer.interpolated = false := Setting.interpolated_nesting env _
  let source : String := "+" ++ name ++ "(" ++ arguments ++ ")"
  have htext : source.toList = '+' :: (name.toList ++ '(' :: (arguments.toList ++ [')'])) := by
    simp [source]
  have hsourceLine : '\n' ∉ source.toList := by
    have hmem : '\n' ∉ name.toList := fun h => absurd (Pattern.isNamePart_of_mem hname h) (by decide)
    simp [htext, hline.1, hmem]
  have hsource : normalize source = source.toList := by
    have hreturn : '\r' ∉ source.toList := by
      have hmem : '\r' ∉ name.toList := fun h =>
        absurd (Pattern.isNamePart_of_mem hname h) (by decide)
      simp [htext, hline.2, hmem]
    rw [normalize, show dropMark source.toList = source.toList by rw [htext]; rfl]
    exact unifyLineEnds_eq hreturn
  have hvalid' : outer.validator (String.ofList ('[' :: arguments.toList ++ [']'])) = none := by
    rw [show outer.validator = validator from Setting.validator_nesting env _, ← hvalid]
    congr 1
    simp [String.ext_iff]
  have hadvance := fun (s : Lexer) (hs : s.rest = source.toList) =>
    Setting.advance_call (s := s) hhooks (hs.trans htext) hname hclosed hline.1 hvalid'
  simp only [String.ofList_toList] at hadvance
  rw [← looksLikeAttributes_iff]
  cases hattributes : Setting.looksLikeAttributes arguments.toList with
  | true =>
    -- the call has no arguments, and stays the first token
    simp only [hattributes, if_true] at hadvance
    have hfirst : Ensures (tokenize env source) ([⟨.call name none, ⟨1, 1⟩⟩] <+: ·) := by
      refine .bind ?_ fun t ht => .ok ht
      rw [hsource, Setting.run, Setting.runSteps_succ hhooks rfl, hadvance _ rfl]
      refine (Setting.ensures_runSteps hhooks (fun s hs _ => Setting.ensures_advance_line hhooks
        (Setting.delegates_nesting rfl _) hinterpolated hs) _ _ ⟨?_, List.prefix_refl _⟩).mono
        fun t ht => ht.1.2
      exact fun hbreak => hsourceLine (List.mem_of_mem_drop hbreak)
    refine iff_of_false (fun htokens => ?_) (by simp)
    simpa using (List.cons_prefix_cons.mp (hfirst _ htokens)).1
  | false =>
    simp only [hattributes, Bool.false_eq_true, if_false] at hadvance
    have hcall : outer.Places ⟨source.toList, [], ⟨1, 1⟩⟩
        [⟨.call name (some arguments), ⟨1, 1⟩⟩] ⟨[], [], ⟨1, 1 + source.toList.length⟩⟩ := by
      refine .step hhooks (by simp [htext]) fun s tokens hs => ⟨_, hadvance s hs.rest_eq, ?_⟩
      refine ⟨rfl, hs.indents_eq, ?_, ?_, hs.style_ne, hs.interpolating, hs.running⟩
      · show s.position.right s.rest.length = _
        rw [hs.position_eq, hs.rest_eq]
        rfl
      · show (⟨_, s.position⟩ :: s.tokens).reverse = _
        rw [List.reverse_cons, hs.tokens_eq, hs.position_eq]
    have hends := hcall.ends (Setting.ends_nil hhooks hinterpolated [] _)
    rw [← hsource] at hends
    refine iff_of_true (hends.tokenize.trans ?_) (by simp)
    have hcolumn : 1 + source.toList.length = name.length + arguments.length + 4 := by
      simp only [htext, List.length_cons, List.length_append, List.length_nil, String.length_toList]
      omega
    rw [hsource, hcolumn]
    rfl

/-- Brackets, a string and equals signs that are not behind a name at the front. -/
theorem tokenize_call_arguments_nested :
    tokenize { validator := fun _ => none } "+foo('a)=b', \x7bc: d == e\x7d)" =
      .ok [⟨.call "foo" (some "'a)=b', \x7bc: d == e\x7d"), ⟨1, 1⟩⟩, ⟨.eos, ⟨1, 26⟩⟩] := by
  have hplain : ¬StartsAssigned "'a)=b', \x7bc: d == e\x7d".toList := by
    rw [← looksLikeAttributes_iff]
    decide +kernel
  exact (@tokenize_call_arguments none (fun _ => none) "foo" "'a)=b', \x7bc: d == e\x7d"
    (by decide) (by decide +kernel) (by decide +kernel) rfl).mpr hplain

/-- A comparison of a name is read as an attribute. -/
theorem tokenize_call_comparison :
    (tokenize { validator := fun _ => none } "+foo(a==b)").toOption.map (·.map Token.kind) =
      some [.call "foo" none, .startAttributes, .attribute "a" (.expression "=b") true,
        .endAttributes, .eos] := by
  decide +kernel

end PugTemplate
