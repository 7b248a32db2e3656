import PugTemplate.Proofs.Node.Readers
import PugTemplate.Proofs.Plugin
/-!
# Hooks extend the grammar

Hooks are asked about tokens that no production takes. In most contexts the template would be refused
there without a hook, so hooks for these contexts change nothing about a template that is accepted
without them, and are never asked about it. The two readers are compared step by step: what the one
without hooks accepts, the other one accepts with the same result.
-/

namespace PugTemplate

namespace TokenReader

variable {α β : Type}

/-! ## Readers that follow each other -/

/-- **The second reader follows the first one**: it accepts what the first one does, with the same
result. -/
def Follows (x y : TokenReader α) : Prop := ∀ ts result, x.run ts = .ok result → y.run ts = .ok result

namespace Follows

variable {x y : TokenReader α} {f g : α → TokenReader β}

theorem refl (x : TokenReader α) : Follows x x := fun _ _ h => h

theorem throw (halt : Halt) (y : TokenReader α) : Follows (MonadExcept.throw halt) y := by
  rintro ts result ⟨⟩

theorem throwAfter {γ : Type} (x : TokenReader γ) (halt : γ → Halt) (y : TokenReader α) :
    Follows (x >>= fun c => MonadExcept.throw (halt c)) y := by
  rintro ts ⟨a, rest⟩ h
  obtain ⟨c, mid, -, hc⟩ := run_bind.mp h
  cases hc

theorem bind (hxy : Follows x y) (hf : ∀ a, Follows (f a) (g a)) : Follows (x >>= f) (y >>= g) := by
  rintro ts ⟨b, rest⟩ h
  obtain ⟨a, mid, hx, ha⟩ := run_bind.mp h
  exact run_bind.mpr ⟨a, mid, hxy ts _ hx, hf a mid _ ha⟩

theorem after (hf : ∀ a, Follows (f a) (g a)) : Follows (x >>= f) (x >>= g) := (refl x).bind hf

theorem before (hx : Follows x y) : Follows (x >>= f) (y >>= f) := hx.bind fun a => refl (f a)

theorem map (hx : Follows x y) (f : α → β) : Follows (f <$> x) (f <$> y) := by
  rw [map_eq_pure_bind]
  exact hx.before

theorem ite {c : Prop} [Decidable c] {x' y' : TokenReader α} (hx : Follows x y)
    (hx' : Follows x' y') : Follows (if c then x else x') (if c then y else y') := by
  by_cases hc : c
  · rwa [if_pos hc, if_pos hc]
  · rwa [if_neg hc, if_neg hc]

end Follows
end TokenReader

open TokenReader

/-! ## Hooks in contexts that refuse -/

/-- A context in which a token that no hook takes is refused. In the others, it ends what is being
read. -/
def HookContext.refuses : HookContext → Bool
  | .text => false
  | .tagAttribute => false
  | _ => true

/-- All hooks are for contexts that refuse what is not for a hook. -/
def Plugins.Refusing (p : Plugins) : Prop := ∀ key ∈ p.storedKeys, key.1.refuses = true

namespace Plugins

variable {p : Plugins} {context : HookContext}

theorem lookup_eq_none_of_notMem {κ η : Type} [BEq κ] [LawfulBEq κ] {l : List (κ × η)} {key : κ}
    (h : key ∉ l.map (·.1)) : l.lookup key = none := by
  refine List.lookup_eq_none_iff.mpr fun e he => ?_
  rw [bne_iff_ne]
  rintro rfl
  exact h (List.mem_map_of_mem he)

theorem Refusing.nodes? (h : p.Refusing) (hc : context.refuses = false) (kind : String) :
    p.nodes? context kind = none := by
  refine lookup_eq_none_of_notMem fun hk => ?_
  have hs : (context, kind) ∈ p.storedKeys :=
    List.mem_append_left _ (List.mem_append_left _ (List.mem_append_right _ hk))
  exact Bool.false_ne_true (hc.symm.trans (h _ hs))

theorem Refusing.tag? (h : p.Refusing) (hc : context.refuses = false) (kind : String) :
    p.tag? context kind = none := by
  refine lookup_eq_none_of_notMem fun hk => ?_
  have hs : (context, kind) ∈ p.storedKeys := List.mem_append_right _ hk
  exact Bool.false_ne_true (hc.symm.trans (h _ hs))

end Plugins

namespace TreeSetting

/-- The setting with hooks, and other readers of the lower level. -/
def extended (env : TreeSetting) (q : Plugins) (lower : TreeReaders) : TreeSetting :=
  { env with plugins := q, lower }

/-- The setting has no hooks, others have some for contexts that refuse, and the readers of the lower
level follow those of the setting. -/
structure Extends (env : TreeSetting) (q : Plugins) (lower : TreeReaders) : Prop where
  expression : ∀ inMixin, Follows (env.lower.expression inMixin) (lower.expression inMixin)
  block : ∀ inMixin, Follows (env.lower.block inMixin) (lower.block inMixin)
  plugins : env.plugins = {}
  hooks : q.Refusing

section Productions

variable {env : TreeSetting} {q : Plugins} {lower : TreeReaders}

/-- What is read with the setting is followed by what is read with the other one. -/
def Extends.Kept {α : Type} (_ : env.Extends q lower) (x : TreeSetting → TokenReader α) : Prop :=
  Follows (x env) (x (env.extended q lower))

variable (h : env.Extends q lower)

include h

/-! ## Parts that ask no hook -/

theorem follows_attributeRun (fuel : Nat) (names : Option (List String))
    (attributes : List Attribute) : h.Kept (·.attributeRun fuel names attributes) := by
  induction fuel generalizing names attributes with
  | zero => exact .refl _
  | succ fuel ih =>
    refine .after fun t => ?_
    cases t.kind
    case «attribute» name value escape =>
      exact .after fun _ => .ite (ih _ _) (.ite (.refl _) (ih _ _))
    all_goals exact .refl _

theorem follows_attributes (names : Option (List String)) : h.Kept (·.attributes names) :=
  .after fun _ => .after fun fuel => .before (follows_attributeRun h fuel names [])

theorem follows_looseAttributes : h.Kept (·.looseAttributes) :=
  .after fun _ => .ite (.before (follows_attributes h none)) (.refl _)

theorem follows_skipNewlines (fuel : Nat) : h.Kept (·.skipNewlines fuel) := by
  induction fuel with
  | zero => exact .refl _
  | succ fuel ih =>
    refine .after fun t => ?_
    cases t with
    | none => exact .refl _
    | some t => exact ih

theorem follows_includeFilters (fuel : Nat) (filters : List FilterCall) :
    h.Kept (·.includeFilters fuel filters) := by
  induction fuel generalizing filters with
  | zero => exact .refl _
  | succ fuel ih =>
    refine .after fun t => ?_
    cases t.kind
    case filter name =>
      exact .after fun _ => .bind (follows_looseAttributes h) fun _ => ih _
    all_goals exact .refl _

theorem follows_expression : h.Kept (·.expression) :=
  h.expression env.inMixin

theorem follows_block? : h.Kept (·.block?) := by
  refine .after fun t => ?_
  cases t.kind
  case indent width => exact (h.block env.inMixin).map some
  all_goals exact .refl _

theorem follows_blockOrEmpty (location : Location) : h.Kept (·.blockOrEmpty location) :=
  .before (follows_block? h)

theorem follows_interpolatedTag : h.Kept (·.interpolatedTag) :=
  .before (follows_expression h)

/-! ## Text -/

/-- **Hooks for nodes.** Where there is none, what comes next has to follow; if the token is refused
there, everything follows. -/
theorem follows_hookNodes {β : Type} {f g : Option (List Node) → TokenReader β}
    (context : HookContext) (kind : String) (hf : ∀ nodes, Follows (f nodes) (g nodes))
    (hr : context.refuses → ∀ y, Follows (f none) y) :
    Follows (env.hookNodes context kind >>= f)
      ((env.extended q lower).hookNodes context kind >>= g) := by
  unfold hookNodes
  rw [h.plugins]
  cases hc : context.refuses with
  | true => exact hr hc _
  | false =>
    rw [show (env.extended q lower).plugins.nodes? context kind = none from h.hooks.nodes? hc kind]
    exact .after hf

theorem follows_textNodes (multiline : Bool) (fuel : Nat) (nodes : List Node) :
    h.Kept (·.textNodes multiline fuel nodes) := by
  induction fuel generalizing nodes with
  | zero => exact .refl _
  | succ fuel ih =>
    refine .after fun t => ?_
    cases t.kind
    case text | interpolatedCode => exact .after fun _ => ih _
    case newline =>
      refine .ite (.after fun _ => .after fun next => ?_) (.refl _)
      cases next.kind <;> exact ih _
    case startInterpolation =>
      exact .after fun _ => .bind (follows_interpolatedTag h) fun _ => ih _
    all_goals
      refine follows_hookNodes h .text _ ?_ (by rintro ⟨⟩)
      rintro (_ | more)
      · exact .refl _
      · exact ih _

theorem follows_text (multiline : Bool) : h.Kept (·.text multiline) :=
  .after fun _ => .after fun fuel => .before (follows_textNodes h multiline fuel [])

theorem follows_htmlRun (fuel : Nat) (run : HtmlRun) : h.Kept (·.htmlRun fuel run) := by
  induction fuel generalizing run with
  | zero => exact .refl _
  | succ fuel ih =>
    refine .after fun t => ?_
    cases t.kind
    case textHtml | code | newline => exact .after fun _ => ih _
    case indent width => exact .bind (h.block env.inMixin) fun _ => ih _
    all_goals exact .refl _

theorem follows_textHtml : h.Kept (·.textHtml) :=
  .after fun fuel => .before (follows_htmlRun h fuel {})

theorem follows_textBlockNodes (fuel : Nat) (nodes : List Node) :
    h.Kept (·.textBlockNodes fuel nodes) := by
  induction fuel generalizing nodes with
  | zero => exact .refl _
  | succ fuel ih =>
    refine .after fun t => ?_
    cases t.kind
    case endPipelessText => exact .refl _
    case text | newline | interpolatedCode => exact .after fun _ => ih _
    case startInterpolation =>
      exact .after fun _ => .bind (follows_interpolatedTag h) fun _ => ih _
    all_goals
      refine follows_hookNodes h .textBlock _ ?_ fun _ => .throw _
      rintro (_ | more)
      · exact .refl _
      · exact ih _

theorem follows_textBlock? : h.Kept (·.textBlock?) := by
  refine .after fun start => ?_
  cases start with
  | none => exact .refl _
  | some t =>
    exact .after fun fuel => .before (follows_textBlockNodes h fuel [])

theorem follows_textBlockOrEmpty (location : Location) : h.Kept (·.textBlockOrEmpty location) :=
  .before (follows_textBlock? h)

theorem follows_codeLines (fuel : Nat) (source : String) : h.Kept (·.codeLines fuel source) := by
  induction fuel generalizing source with
  | zero => exact .refl _
  | succ fuel ih =>
    refine .after fun t => ?_
    cases t.kind
    case endPipelessText => exact .refl _
    case text | newline => exact ih _
    all_goals
      rw [h.plugins]
      exact .throw _ _

theorem follows_blockCode (at_ : Position) : h.Kept (·.blockCode at_) := by
  refine .after fun start => ?_
  cases start with
  | none => exact .refl _
  | some t => exact .after fun fuel => .before (follows_codeLines h fuel "")

/-! ## Tags -/

theorem follows_hookTag {β : Type} {f g : Option TagDraft → TokenReader β} (context : HookContext)
    (kind : String) (draft : TagDraft) (hf : ∀ next, Follows (f next) (g next))
    (hr : context.refuses → ∀ y, Follows (f none) y) :
    Follows (env.hookTag context kind draft >>= f)
      ((env.extended q lower).hookTag context kind draft >>= g) := by
  unfold hookTag
  rw [h.plugins]
  cases hc : context.refuses with
  | true => exact hr hc _
  | false =>
    rw [show (env.extended q lower).plugins.tag? context kind = none from h.hooks.tag? hc kind]
    exact .after hf

theorem follows_tagAttributes (fuel : Nat) (names : List String) (draft : TagDraft) :
    h.Kept (·.tagAttributes fuel names draft) := by
  induction fuel generalizing names draft with
  | zero => exact .refl _
  | succ fuel ih =>
    refine .after fun t => ?_
    cases t.kind
    case id name => exact .after fun _ => .ite (.refl _) (ih _ _)
    case «class» | spreadAttributes => exact .after fun _ => ih _ _
    case startAttributes => exact .bind (follows_attributes h _) fun _ => ih _ _
    all_goals
      refine follows_hookTag h .tagAttribute _ draft ?_ (by rintro ⟨⟩)
      rintro (_ | next)
      · exact .refl _
      · exact ih _ _

theorem follows_tagLine (slashAllowed : Bool) (draft : TagDraft) :
    h.Kept (·.tagLine slashAllowed draft) := by
  refine .after fun t => ?_
  cases hk : t.kind
  case text | interpolatedCode => exact .before (follows_text h false)
  case colon => exact .after fun _ => .before (follows_expression h)
  case code | newline | indent | outdent | eos | startPipelessText | endInterpolation => exact .refl _
  all_goals
    refine .ite (.refl _) (follows_hookTag h .tag _ draft ?_ fun _ => .throwAfter _ _)
    rintro (_ | next) <;> exact .refl _

theorem follows_tagDraft (slashAllowed : Bool) (location : Location) :
    h.Kept (·.tagDraft slashAllowed location) := by
  refine .after fun fuel => .bind (follows_tagAttributes h fuel [] _) fun draft =>
    .after fun dot => .bind (follows_tagLine h slashAllowed _) fun draft =>
    .after fun fuel => .bind (follows_skipNewlines h fuel) fun _ => .ite ?_ ?_
  · exact .before (follows_textBlockOrEmpty h location)
  · refine .bind (follows_block? h) fun body => ?_
    cases body <;> exact .refl _

theorem follows_tag (label : TagLabel) (at_ : Position) : h.Kept (·.tag label at_) :=
  .before (follows_tagDraft h true _)

theorem follows_call (name : String) (arguments : Option String) (at_ : Position) :
    h.Kept (·.call name arguments at_) :=
  .before (follows_tagDraft h false _)

/-! ## Blocks and control flow -/

theorem follows_nodesUntil (stop : TokenKind) (fuel : Nat) (nodes : List Node) :
    h.Kept (·.nodesUntil stop fuel nodes) := by
  induction fuel generalizing nodes with
  | zero => exact .refl _
  | succ fuel ih =>
    refine .after fun t => .ite (.refl _) ?_
    cases t.kind
    case newline => exact .after fun _ => ih _
    case textHtml line => exact .bind (follows_textHtml h) fun _ => ih _
    all_goals exact .bind (follows_expression h) fun _ => ih _

theorem follows_blockStep : h.Kept (·.blockStep) :=
  .after fun _ => .after fun fuel =>
    .before (follows_nodesUntil h .outdent fuel [])

theorem follows_blockExpansion : h.Kept (·.blockExpansion) := by
  refine .after fun colon => ?_
  cases colon with
  | none => exact h.block env.inMixin
  | some t => exact .before (follows_expression h)

theorem follows_codeBlock (source : String) (escape buffer : Bool) (at_ : Position) :
    h.Kept (·.codeBlock source escape buffer at_) := by
  refine .after fun t => ?_
  cases t.kind
  case indent width => exact .ite (.refl _) (.before (h.block env.inMixin))
  all_goals exact .refl _

theorem follows_caseBranches (fuel : Nat) (nodes : List Node) :
    h.Kept (·.caseBranches fuel nodes) := by
  induction fuel generalizing nodes with
  | zero => exact .refl _
  | succ fuel ih =>
    refine .after fun t => ?_
    cases t.kind
    case outdent => exact .refl _
    case comment | newline => exact .after fun _ => ih _
    case when value =>
      refine .after fun _ => .after fun next => .ite ?_ ?_
      · exact .after fun _ => ih _
      · exact .bind ((follows_blockExpansion h).map some) fun _ => ih _
    case default =>
      exact .after fun _ => .bind (follows_blockExpansion h) fun _ => ih _
    all_goals
      refine follows_hookNodes h .case _ ?_ fun _ => .throwAfter _ _
      rintro (_ | more)
      · exact .refl _
      · exact ih _

theorem follows_case (subject : String) (at_ : Position) : h.Kept (·.case subject at_) :=
  .after fun _ => .after fun fuel => .before (follows_caseBranches h fuel [])

theorem follows_branch (test : String) (at_ : Position) : h.Kept (·.branch test at_) :=
  .before (follows_blockOrEmpty h _)

theorem follows_otherBranches (fuel : Nat) (branches : List Branch) :
    h.Kept (·.otherBranches fuel branches) := by
  induction fuel generalizing branches with
  | zero => exact .refl _
  | succ fuel ih =>
    refine .after fun t => ?_
    cases t.kind
    case newline => exact .after fun _ => ih _
    case elseIf test => exact .after fun _ => .bind (follows_branch h test _) fun _ => ih _
    case «else» text => exact .after fun _ => .before (follows_block? h)
    all_goals exact .refl _

theorem follows_conditional (test : String) (at_ : Position) : h.Kept (·.conditional test at_) :=
  .bind (follows_branch h test at_) fun _ => .after fun fuel =>
    .before (follows_otherBranches h fuel [])

theorem follows_each (item : String) (key : Option String) (list : String) (at_ : Position) :
    h.Kept (·.each item key list at_) := by
  refine .bind (h.block env.inMixin) fun body => .after fun t => ?_
  cases t with
  | none => exact .refl _
  | some t => exact .before ((h.block env.inMixin).map some)

/-! ## Other files, filters and mixins -/

theorem follows_includeFile (at_ : Position) : h.Kept (·.includeFile at_) := by
  refine .after fun fuel => .bind (follows_includeFilters h fuel []) fun filters =>
    .after fun file => .ite ?_ (.refl _)
  exact .before (follows_blockOrEmpty h _)

theorem follows_filter (name : String) (at_ : Position) : h.Kept (·.filter name at_) := by
  refine .bind (follows_looseAttributes h) fun attributes => .after fun t => ?_
  cases t.kind
  case text text => exact .refl _
  case filter name => exact .before (follows_expression h)
  all_goals exact .before (follows_textBlockOrEmpty h _)

theorem follows_mixin (name : String) (parameters : Option String) (at_ : Position) :
    h.Kept (·.mixin name parameters at_) := by
  refine .after fun t => ?_
  cases t.kind
  case indent width => exact .before (h.block true)
  all_goals exact .refl _

theorem follows_comment (text : String) (buffer : Bool) (at_ : Position) :
    h.Kept (·.comment text buffer at_) := by
  refine .bind (follows_textBlock? h) fun body => ?_
  cases body <;> exact .refl _

/-! ## Expressions -/

theorem follows_hookExpression (t : Token) : h.Kept (·.hookExpression t) := by
  show Follows (env.hookExpression t) ((env.extended q lower).hookExpression t)
  unfold hookExpression
  rw [h.plugins]
  exact .throw _ _

theorem follows_step : h.Kept (·.step) := by
  refine .after fun t => ?_
  cases t.kind
  case tag | interpolation => exact .after fun _ => follows_tag h _ _
  case id | «class» => exact follows_tag h _ _
  case mixin name parameters => exact .after fun _ => follows_mixin h _ _ _
  case call name arguments => exact .after fun _ => follows_call h _ _ _
  case block | «while» => exact .after fun _ => .before (follows_blockOrEmpty h _)
  case case subject => exact .after fun _ => follows_case h _ _
  case «include» => exact .after fun _ => follows_includeFile h _
  case filter name => exact .after fun _ => follows_filter h _ _
  case comment text buffer => exact .after fun _ => follows_comment h _ _ _
  case text | interpolatedCode | startInterpolation => exact follows_text h true
  case textHtml line => exact .before (follows_textHtml h)
  case dot => exact .after fun _ => .before (follows_textBlockOrEmpty h _)
  case each item key list => exact .after fun _ => follows_each h _ _ _ _
  case code source escape buffer => exact .after fun _ => follows_codeBlock h _ _ _ _
  case blockCode => exact .after fun _ => follows_blockCode h _
  case «if» test => exact .after fun _ => follows_conditional h _ _
  case mixinBlock | «extends» | doctype | yield => exact .refl _
  all_goals exact follows_hookExpression h t

end Productions

/-! ## Levels -/

theorem follow_readers {q : Plugins} (h : q.Refusing) (file : Option String) (levels : Nat)
    (inMixin : Bool) :
    Follows ((readers file {} levels).expression inMixin)
        ((readers file q levels).expression inMixin) ∧
      Follows ((readers file {} levels).block inMixin) ((readers file q levels).block inMixin) := by
  induction levels generalizing inMixin with
  | zero => exact ⟨.refl _, .refl _⟩
  | succ levels ih =>
    let env : TreeSetting := { file, inMixin, lower := readers file {} levels }
    have hex : env.Extends q (readers file q levels) :=
      ⟨fun inMixin => (ih inMixin).1, fun inMixin => (ih inMixin).2, rfl, h⟩
    exact ⟨follows_step hex, follows_blockStep hex⟩

end TreeSetting

/-- **Whole templates** that are accepted without hooks are accepted with them. -/
theorem Block.ofTokens_extended {q : Plugins} (h : q.Refusing) {file : Option String}
    {tokens : TokenStream} {tree : Block} (ht : Block.ofTokens file {} tokens = .ok tree) :
    Block.ofTokens file q tokens = .ok tree := by
  let env : TreeSetting := { file, lower := TreeSetting.readers file {} (tokens.length + 1) }
  have hex : env.Extends q (TreeSetting.readers file q (tokens.length + 1)) :=
    ⟨fun inMixin => (TreeSetting.follow_readers h file _ inMixin).1,
      fun inMixin => (TreeSetting.follow_readers h file _ inMixin).2, rfl, h⟩
  have hn : Follows (do
        let nodes ← env.nodesUntil .eos (← TreeSetting.budget) []
        pure { nodes, location := { file } } : TokenReader Block) _ :=
    .after fun fuel => .before (TreeSetting.follows_nodesUntil hex .eos fuel [])
  obtain ⟨rest, hread⟩ := ofTokens_eq_ok_iff.mp ht
  exact ofTokens_eq_ok_iff.mpr ⟨rest, hn tokens _ hread⟩

/-! ## Templates about which a hook is asked -/

namespace Plugins

/-- The set with hooks for the same tokens, all of which fail in one way. -/
def alarmed (p : Plugins) (alarm : Diagnostic) : Plugins :=
  { p with
    expressions := p.expressions.map fun e => (e.1, fun _ => throw (.refused alarm))
    nodes := p.nodes.map fun e => (e.1, fun _ => throw (.refused alarm))
    blockCode := p.blockCode.map fun e => (e.1, fun _ _ => throw (.refused alarm))
    tags := p.tags.map fun e => (e.1, fun _ _ => throw (.refused alarm)) }

end Plugins

/-- **A hook is asked** about a template: if all hooks fail in one way, so does the template. -/
def Block.AsksHooks (file : Option String) (p : Plugins) (tokens : TokenStream) : Prop :=
  ∀ alarm, Block.ofTokens file (p.alarmed alarm) tokens = .error alarm

/-- Text ends at the first token that is not part of it, but a hook for that token is asked. -/
example :
    let tokens : TokenStream := [⟨.text "a", ⟨1, 1⟩⟩, ⟨.eos, ⟨1, 2⟩⟩]
    Block.AsksHooks none { nodes := [((.text, "eos"), fun _ => pure none)] } tokens ∧
      ¬Block.AsksHooks none { nodes := [((.text, "tag"), fun _ => pure none)] } tokens := by
  refine ⟨fun _ => rfl, fun hasks => ?_⟩
  cases hasks default

/-! ## Templates that are accepted without hooks -/

namespace Plugins

theorem storedKeys_alarmed (p : Plugins) (alarm : Diagnostic) :
    (p.alarmed alarm).storedKeys = p.storedKeys := by
  simp [storedKeys, alarmed, Function.comp_def]

end Plugins

/-- **Hooks extend the grammar.** A template that is accepted without hooks is accepted with hooks
for expressions, text blocks, choices, blocks of code and tags, whatever tokens they are for and
whatever they do. Its tree is the same, and no hook is asked. -/
theorem Block.ofTokens_conservative {file : Option String} {p : Plugins} {tokens : TokenStream}
    {tree : Block}
    (hcontexts : ∀ key ∈ p.storedKeys,
      key.1 ∈ [HookContext.expression, .textBlock, .case, .blockCode, .tag])
    (htree : Block.ofTokens file {} tokens = .ok tree) :
    Block.ofTokens file p tokens = .ok tree ∧ ¬Block.AsksHooks file p tokens := by
  have hsame {q : Plugins} (hq : q.storedKeys = p.storedKeys) :
      Block.ofTokens file q tokens = .ok tree := by
    have hrefusing : q.Refusing := by
      intro key hkey
      have hcontext := hcontexts key (hq ▸ hkey)
      generalize key.1 = context at hcontext
      revert context
      decide
    exact Block.ofTokens_extended hrefusing htree
  refine ⟨hsame rfl, fun hasks => ?_⟩
  have halarm := hasks default
  rw [hsame (Plugins.storedKeys_alarmed p _)] at halarm
  cases halarm

/-- A tag with text, with hooks that fail for its two tokens. -/
theorem Block.ofTokens_conservative_tag :
    let tokens : TokenStream :=
      [⟨.tag "p", ⟨1, 1⟩⟩, ⟨.text "a", ⟨1, 3⟩⟩, ⟨.eos, ⟨1, 4⟩⟩]
    let p : Plugins :=
      { expressions := [("tag", fun _ => throw default)]
        tags := [((.tag, "text"), fun _ _ => throw default)] }
    ∃ tree, Block.ofTokens none p tokens = .ok tree ∧ ¬Block.AsksHooks none p tokens := by
  intro tokens p
  obtain ⟨tree, htree⟩ : ∃ tree, Block.ofTokens none {} tokens = .ok tree := ⟨_, rfl⟩
  exact ⟨tree, Block.ofTokens_conservative (by decide) htree⟩

end PugTemplate
