import PugTemplate.Program.Assemble
import PugTemplate.Proofs.Program.Parts
import PugTemplate.Proofs.Program.Runs
import PugTemplate.Proofs.Program.Spelling
/-!
# Programs bring the helpers that they call

Every part of the writer that writes a call of a helper notes the helper as well. What a template
gives stands in the code as it is (`nodeTexts`), and everything else is code of the writer's own or a
constant. So the whole program is taken apart into chunks (`Spelled`), and the calls in the writer's
own code are of the helpers that are noted.
-/

namespace PugTemplate

open List
namespace Program

open Emit WriterSetting

/-! ## What a template gives -/

/-- The sources of attributes and of what is spread. -/
def attributeTexts (attributes : List Attribute) (spreads : List Spread) : List String :=
  attributes.map (·.value.source) ++ spreads.map (·.source)

def labelTexts : TagLabel → List String
  | .name _ => []
  | .expression source => [source]

def computedName (name : String) : String := String.ofList ((name.toList.drop 2).dropLast)

mutual

/-- The texts of a node that stand in code as they are. -/
def nodeTexts : Node → List String
  | .block body => blockTexts body
  | .namedBlock _ _ body _ => blockTexts body
  | .tag head body =>
    labelTexts head.label ++ attributeTexts head.attributes head.spreads ++ blockTexts body
  | .code head body => [head.source, Text.trimString head.source] ++ optionTexts body
  | .blockComment _ body _ _ => blockTexts body
  | .each item key list body otherwise _ =>
    [item, list] ++ key.toList ++ blockTexts body ++ optionTexts otherwise
  | .while test body _ => [test] ++ blockTexts body
  | .conditional first others otherwise =>
    branchTexts first ++ branchesTexts others ++ optionTexts otherwise
  | .case subject body _ => [subject] ++ blockTexts body
  | .when value body _ => [value] ++ optionTexts body
  | .mixin name parameters body _ =>
    let (names, rest) := splitParameters parameters
    [computedName name] ++ names ++ rest.toList ++ blockTexts body
  | .call name arguments body attributes spreads _ =>
    [computedName name, arguments.getD ""] ++ attributeTexts attributes spreads ++ optionTexts body
  | _ => []

def blockTexts : BlockOf Node → List String
  | ⟨nodes, _⟩ => nodesTexts nodes

def optionTexts : Option (BlockOf Node) → List String
  | none => []
  | some body => blockTexts body

def nodesTexts : List Node → List String
  | [] => []
  | node :: rest => nodeTexts node ++ nodesTexts rest

def branchTexts : BranchOf Node → List String
  | ⟨test, body, _⟩ => [test] ++ blockTexts body

def branchesTexts : List (BranchOf Node) → List String
  | [] => []
  | b :: bs => branchTexts b ++ branchesTexts bs

end

/-! ## Actions that note helpers -/

def Write.IsSpelled (given : String → Prop) (helpers : List Helper) : Write → Prop
  | .text _ => True
  | .expression source => Spelled given helpers source
  | .choice subject => Spelled given helpers (choiceCode subject)
  | .branch value => Spelled given helpers (branchCode value)
  | .statement code => Spelled given helpers code

theorem Write.IsSpelled.mono {given : String → Prop} {helpers more : List Helper} {w : Write}
    (h : w.IsSpelled given helpers) (hsub : helpers ⊆ more) : w.IsSpelled given more := by
  cases w with
  | text => trivial
  | _ => exact Spelled.mono h hsub

/-- **The action notes the helpers that it calls.** Those that are known stay noted, none of the new
ones is for other helpers only, and in a program with copies of helpers all writes can be taken
apart, with `Q` for the result. -/
def Emit.Notes {α : Type} (given : String → Prop) (inline : Bool) (known : List Helper) (x : Emit α)
    (Q : α → List Helper → Prop) : Prop :=
  ∀ s a ws t, known ⊆ s.helpers → x s = .ok (a, ws, t) →
    s.helpers ⊆ t.helpers ∧
    (∀ h ∈ t.helpers, h ∈ s.helpers ∨ inline = true ∧ h.isInternal = false) ∧
    (inline = true → Q a t.helpers ∧ ∀ w ∈ ws, w.IsSpelled given t.helpers)

namespace Emit.Notes

variable {α β : Type} {given : String → Prop} {inline : Bool} {known : List Helper} {x : Emit α}
  {Q : α → List Helper → Prop} {R : β → List Helper → Prop}

theorem pure {a : α} (ha : inline = true → ∀ helpers, known ⊆ helpers → Q a helpers) :
    Notes given inline known (Pure.pure a) Q := by
  rintro s _ _ _ hknown ⟨⟩
  exact ⟨Subset.refl _, fun h hh => .inl hh, fun hinline =>
    ⟨ha hinline _ hknown, fun w hw => absurd hw not_mem_nil⟩⟩

theorem done : Notes given inline known (Pure.pure () : Emit Unit) fun _ _ => True :=
  .pure fun _ _ _ => trivial

theorem write {w : Write}
    (hw : inline = true → ∀ helpers, known ⊆ helpers → w.IsSpelled given helpers) :
    Notes given inline known (Emit.write w) fun _ _ => True := by
  rintro s _ _ _ hknown ⟨⟩
  exact ⟨Subset.refl _, fun h hh => .inl hh, fun hinline =>
    ⟨trivial, forall_mem_singleton.mpr (hw hinline _ hknown)⟩⟩

theorem text (c : String) : Notes given inline known (Emit.text c) fun _ _ => True :=
  write fun _ _ _ => trivial

theorem statement {code : String} (h : ∀ helpers, Spelled given helpers code) :
    Notes given inline known (Emit.statement code) fun _ _ => True :=
  write fun _ helpers _ => h helpers

theorem change {f : WriterState → WriterState} (hf : ∀ s, (f s).helpers = s.helpers) :
    Notes given inline known (Emit.change f) fun _ _ => True := by
  rintro s _ _ _ hknown ⟨⟩
  rw [hf]
  exact ⟨Subset.refl _, fun h hh => .inl hh, fun _ =>
    ⟨trivial, fun w hw => absurd hw not_mem_nil⟩⟩

theorem fail (d : Diagnostic) : Notes given inline known (Emit.fail d : Emit α) Q := by
  rintro s _ _ _ - ⟨⟩

theorem bind {f : α → Emit β} (hx : Notes given inline known x Q)
    (hf : ∀ a noted, known ⊆ noted → (inline = true → Q a noted) →
      Notes given inline noted (f a) R) :
    Notes given inline known (x >>= f) R := by
  intro s b ws u hknown hrun
  obtain ⟨a, first, t, second, hfirst, hsecond, rfl⟩ := bind_eq_ok.mp hrun
  obtain ⟨hsub, hnew, hspelled⟩ := hx s a first t hknown hfirst
  obtain ⟨hsub', hnew', hspelled'⟩ :=
    hf a t.helpers (Subset.trans hknown hsub) (fun hinline => (hspelled hinline).1) t b second u
      (Subset.refl _) hsecond
  refine ⟨Subset.trans hsub hsub', fun h hh => ?_, fun hinline => ⟨(hspelled' hinline).1, ?_⟩⟩
  · exact (hnew' h hh).elim (hnew h) .inr
  · exact forall_mem_append.mpr ⟨fun w hw => ((hspelled hinline).2 w hw).mono hsub',
      (hspelled' hinline).2⟩

theorem mono {known' : List Helper} (hx : Notes given inline known x Q) (hsub : known ⊆ known') :
    Notes given inline known' x Q :=
  fun s a ws t hknown => hx s a ws t (Subset.trans hsub hknown)

theorem next {f : α → Emit β} (hx : Notes given inline known x Q)
    (hf : ∀ a, Notes given inline known (f a) R) : Notes given inline known (x >>= f) R :=
  hx.bind fun a _ hsub _ => (hf a).mono hsub

theorem withState {f : WriterState → Emit β} (hf : ∀ s, Notes given inline known (f s) R) :
    Notes given inline known (state >>= f) R :=
  fun s b ws u hknown hrun => hf s s b ws u hknown (by rwa [state_bind] at hrun)

theorem onlyIf {y : Emit Unit} (c : Bool) (hy : Notes given inline known y fun _ _ => True) :
    Notes given inline known (Emit.onlyIf c y) fun _ _ => True := by
  cases c with
  | true => exact hy
  | false => exact .done

theorem ite {c : Prop} [Decidable c] {y : Emit α} (hx : Notes given inline known x Q)
    (hy : Notes given inline known y Q) : Notes given inline known (if c then x else y) Q := by
  split
  · exact hx
  · exact hy

end Emit.Notes

/-! ## Parts of the writer -/

section Parts

variable {env : WriterSetting} {given : String → Prop} {known : List Helper}

/-- The action notes the helpers that it calls, in a setting. -/
abbrev WriterSetting.Notes {α : Type} (env : WriterSetting) (given : String → Prop)
    (known : List Helper) (x : Emit α) (Q : α → List Helper → Prop) : Prop :=
  Emit.Notes given env.options.inlineHelpers known x Q

abbrev WriterSetting.NotesCalls (env : WriterSetting) (given : String → Prop) (x : Emit Unit) :
    Prop :=
  env.Notes given [] x fun _ _ => True

theorem reach_call (hinline : env.options.inlineHelpers = true) (h : Helper) :
    env.reach h ++ "(" = h.callText := by
  rw [reach, Options.helperPrefix, hinline]
  rfl

theorem notes_useHelpers {helpers : List Helper} (hexported : ∀ h ∈ helpers, h.isInternal = false) :
    env.Notes given known (env.useHelpers helpers) fun _ noted => helpers ⊆ noted := by
  unfold useHelpers
  cases hinline : env.options.inlineHelpers with
  | false => exact .pure fun h => absurd h (by simp [hinline])
  | true =>
    rintro s _ _ _ hknown ⟨⟩
    refine ⟨subset_append_left .., fun h hh => ?_, fun _ =>
      ⟨subset_append_right .., fun w hw => absurd hw not_mem_nil⟩⟩
    exact (mem_append.mp hh).imp id fun hh => ⟨hinline, hexported h hh⟩

theorem notes_helper {h : Helper} (hexported : h.isInternal = false) :
    env.Notes given known (env.helper h) fun code noted => h ∈ noted ∧ code ++ "(" = h.callText := by
  refine (notes_useHelpers (forall_mem_singleton.mpr hexported)).bind fun _ noted _ hnoted => ?_
  exact .pure fun hinline helpers hsub =>
    ⟨hsub (hnoted hinline mem_cons_self), reach_call hinline h⟩

theorem notes_expression {source : String}
    (h : env.options.inlineHelpers = true → ∀ helpers, known ⊆ helpers →
      Spelled given helpers source) :
    env.Notes given known (env.expression source) fun _ _ => True := by
  unfold expression
  split
  · exact .text _
  · exact .write h

theorem notes_indent (more : Nat) (newline : Bool) :
    env.Notes given known (env.indent more newline) fun _ _ => True :=
  .next (.text _) fun _ => .onlyIf _ (.statement fun _ => .own rfl)

theorem notes_newline (more : Nat) : env.Notes given known (env.newline more) fun _ _ => True :=
  .onlyIf _ (notes_indent more true)

/-! ### Attributes -/

variable {attributes : List Attribute} {spreads : List Spread}

theorem notes_attributes (form : AttributeForm) (hgiven : ∀ a ∈ attributes, given a.value.source) :
    env.Notes given known (env.attributes form attributes) fun code noted =>
      Spelled given noted code := by
  refine .withState fun s => (notes_useHelpers fun h => AttributeSetting.isInternal_code).bind
    fun _ noted _ hnoted => .pure fun hinline helpers hsub => ?_
  exact AttributeSetting.spelled_code (reach_call hinline) hgiven
    (Subset.trans (hnoted hinline) hsub)

theorem mem_attributeTexts (h : ∀ t ∈ attributeTexts attributes spreads, given t) :
    (∀ a ∈ attributes, given a.value.source) ∧ ∀ s ∈ spreads, given s.source := by
  obtain ⟨hattributes, hspreads⟩ := forall_mem_append.mp h
  exact ⟨fun a ha => hattributes _ (mem_map_of_mem ha), fun s hs => hspreads _ (mem_map_of_mem hs)⟩

theorem notes_merge {items : List String}
    (h : env.options.inlineHelpers = true → ∀ code ∈ items, Spelled given known code) :
    env.Notes given known (match items with
      | [single] => pure single
      | items => do
        let merge ← env.helper .merge
        pure (merge ++ "([" ++ String.intercalate "," items ++ "])"))
      fun code noted => Spelled given noted code := by
  split
  · exact .pure fun hinline helpers hsub => (h hinline _ mem_cons_self).mono hsub
  · refine (notes_helper rfl).bind fun merge noted hnoted hmerge => .pure fun hinline helpers hsub => ?_
    obtain ⟨hmem, hcall⟩ := hmerge hinline
    rw [show "([" = "(" ++ "[" from rfl, ← String.append_assoc, hcall]
    have hlist := (Spelled.intercalate "," rfl (h hinline)).mono
      (Subset.trans hnoted hsub)
    have hspelled := ((hlist.start "[" rfl).call (hsub hmem)).stop "])"
      rfl
    simpa only [String.append_assoc] using hspelled

theorem notes_spreadAttributes (h : ∀ t ∈ attributeTexts attributes spreads, given t) :
    env.Notes given known (env.spreadAttributes attributes spreads) fun code noted =>
      Spelled given noted code := by
  obtain ⟨hattributes, hspreads⟩ := mem_attributeTexts h
  have hsources (noted : List Helper) : ∀ code ∈ spreads.map (·.source), Spelled given noted code := by
    intro code hcode
    obtain ⟨spread, hspread, rfl⟩ := mem_map.mp hcode
    exact .of_given (hspreads spread hspread)
  unfold spreadAttributes
  dsimp only
  split
  · rw [Emit.pure_bind]
    exact notes_merge fun _ => hsources known
  · refine (notes_attributes .object hattributes).bind fun code noted _ hcode => ?_
    rw [Emit.pure_bind]
    exact notes_merge fun hinline => forall_mem_cons.mpr ⟨hcode hinline, hsources noted⟩

theorem notes_tagAttributes (h : ∀ t ∈ attributeTexts attributes spreads, given t) :
    env.NotesCalls given (env.tagAttributes attributes spreads) := by
  refine .ite ?_ (.ite ?_ .done)
  · refine (notes_spreadAttributes h).bind fun object noted _ hobject => ?_
    refine (notes_helper rfl).bind fun all noted' hnoted hall => .withState fun s => ?_
    refine notes_expression fun hinline helpers hsub => ?_
    obtain ⟨hmem, hcall⟩ := hall hinline
    rw [hcall]
    exact ((((hobject hinline).mono (Subset.trans hnoted hsub)).call (hsub hmem)).seam ", "
      rfl (AttributeSetting.spelled_boolCode _)).stop ")" rfl
  · refine (notes_attributes .html (mem_attributeTexts h).1).bind fun code noted _ hcode => ?_
    exact notes_expression fun hinline helpers hsub => (hcode hinline).mono hsub

/-! ### Tags and code -/

theorem notes_emitName {label : TagLabel} (h : ∀ t ∈ labelTexts label, given t) :
    env.NotesCalls given (emitName env label) := by
  cases label with
  | name name => exact .text _
  | expression source =>
    exact notes_expression fun _ _ _ => .of_given (h source mem_cons_self)

theorem notes_writeDoctype {inline : Bool} :
    Emit.Notes given inline known writeDoctype fun _ _ => True := by
  refine .withState fun s => ?_
  dsimp only
  split
  · exact .next (.text _) fun _ => .change fun _ => rfl
  · exact .change fun _ => rfl

theorem helpers_choose (s : WriterState) (name : String) : (s.choose name).helpers = s.helpers := rfl

theorem notes_doctype (name : String) : env.NotesCalls given (doctype name) := by
  refine .withState fun s => .ite ?_ (.ite ?_ (notes_writeDoctype))
  all_goals
    exact .next (.change fun s => helpers_choose s _) fun _ => notes_writeDoctype

theorem notes_emitStartTag (env : WriterSetting) {head : TagHead}
    (hlabel : ∀ t ∈ labelTexts head.label, given t)
    (h : ∀ t ∈ attributeTexts head.attributes head.spreads, given t) :
    env.NotesCalls given (emitStartTag env head) := by
  have hfirst : env.NotesCalls given (emitFirstTag head) :=
    .withState fun s => .onlyIf _ (.next (.onlyIf _ (notes_writeDoctype)) fun _ =>
      .change fun _ => rfl)
  exact .next (.onlyIf _ (.change fun _ => rfl)) fun _ => .next hfirst fun _ =>
    .next (.onlyIf _ (notes_newline 0)) fun _ => .next (.text _) fun _ =>
    .next (notes_emitName hlabel) fun _ => notes_tagAttributes h

theorem notes_emitEndTag (env : WriterSetting) {head : TagHead}
    (hlabel : ∀ t ∈ labelTexts head.label, given t)
    (body : Block) : env.NotesCalls given (emitEndTag env head body) :=
  .next (.onlyIf _ (notes_newline 0)) fun _ => .next (.text _) fun _ =>
    .next (notes_emitName hlabel) fun _ => .text _

theorem notes_emitClosed (env : WriterSetting) (head : TagHead) (content : List Node) :
    env.NotesCalls given (emitClosed head content) :=
  .withState fun _ => .next (.text _) fun _ => .ite (.fail _) .done

theorem notes_emitValue {head : CodeHead} (h : given (Text.trimString head.source)) :
    env.NotesCalls given (emitValue env head) := by
  have hvalue (helpers : List Helper) : Spelled given helpers
      ("null == (pug_interp = " ++ Text.trimString head.source ++ ") ? \"\" : pug_interp") :=
    ((Spelled.of_given h).start _ rfl).stop _ rfl
  unfold emitValue
  dsimp only
  split
  · exact .text _
  · refine .ite ((notes_helper rfl).bind fun escape noted _ hescape => ?_)
      (.write fun _ helpers _ => hvalue helpers)
    refine .write fun hinline helpers hsub => ?_
    obtain ⟨hmem, hcall⟩ := hescape hinline
    rw [hcall]
    exact ((hvalue helpers).call (hsub hmem)).stop ")" rfl

/-! ### Mixins and loops -/

theorem notes_emitDebugLine (node : Node) : env.NotesCalls given (emitDebugLine env node) := by
  refine .onlyIf _ (.statement fun helpers => ?_)
  have hline : Spelled given helpers (";pug_debug_line = " ++ toString node.location.line) :=
    (Spelled.number _).start _ rfl
  unfold debugLine
  split
  · next file hfile =>
    rw [← String.append_assoc]
    exact (hline.seam _ rfl (.literal file)).stop _ rfl
  · rw [String.append_empty]
    exact hline.stop _ rfl

theorem notes_inFrame {x : Emit Unit} (hx : env.NotesCalls given x) :
    env.NotesCalls given (inFrame env x) := by
  refine .next (.onlyIf _ (.statement fun helpers => ?_)) fun _ => .next hx fun _ =>
    .onlyIf _ (.statement fun helpers => .own rfl)
  exact ((Spelled.literal _).start _ rfl).stop _ rfl

theorem spelled_mixinTarget {name : String} {helpers : List Helper} (h : given (computedName name)) :
    Spelled given helpers (mixinTarget name) := by
  unfold mixinTarget
  split
  · exact ((Spelled.of_given h).start _ rfl).stop _ rfl
  · exact ((Spelled.literal name).start _ rfl).stop _ rfl

theorem spelled_mixinCall {name arguments : String} {helpers : List Helper}
    (h : given (computedName name)) (harguments : given arguments) :
    Spelled given helpers (mixinTarget name ++ "(" ++ arguments ++ ");") := by
  have harguments : Spelled given helpers arguments := .of_given harguments
  have htarget {place : String} (hplace : Spelled given helpers place) :
      Spelled given helpers ("pug_mixins[" ++ place ++ "]" ++ "(" ++ arguments ++ ");") := by
    have hcall := ((hplace.start "pug_mixins[" rfl).seam "](" rfl
      harguments).stop ");" rfl
    rw [show "](" = "]" ++ "(" from rfl] at hcall
    simpa only [String.append_assoc, -String.reduceAppend] using hcall
  unfold mixinTarget
  split
  · exact htarget (.of_given h)
  · exact htarget (.literal name)

theorem notes_emitMixinHead {name : String} {parameters : Option String}
    (hname : given (computedName name)) (hnames : ∀ t ∈ (splitParameters parameters).1, given t)
    (hrest : ∀ t ∈ (splitParameters parameters).2, given t) :
    env.NotesCalls given (emitMixinHead name parameters) := by
  unfold emitMixinHead
  generalize splitParameters parameters = parts at hnames hrest ⊢
  obtain ⟨names, rest⟩ := parts
  have hlist (helpers : List Helper) : Spelled given helpers (String.intercalate "," names) :=
    .intercalate _ rfl fun code hcode => .of_given (hnames code hcode)
  refine .next (.statement fun helpers => ?_) fun _ =>
    .next (.statement fun helpers => .own rfl) fun _ => ?_
  · exact ((spelled_mixinTarget hname).seam _ rfl (hlist helpers)).stop _
      rfl
  cases rest with
  | none => exact .done
  | some rest =>
    have hgiven (helpers : List Helper) : Spelled given helpers rest := .of_given (hrest rest rfl)
    refine .next (.statement fun helpers => ?_) fun _ => .next (.statement fun helpers => ?_) fun _ =>
      .next (.statement fun helpers => ?_) fun _ => .statement fun helpers => .own rfl
    · exact ((hgiven helpers).start _ rfl).stop _ rfl
    · exact ((Spelled.number _).start _ rfl).stop _ rfl
    · exact ((hgiven helpers).start _ rfl).stop _ rfl

theorem notes_emitCallEnd {arguments : String} (hgiven : given arguments)
    (h : ∀ t ∈ attributeTexts attributes spreads, given t) :
    env.NotesCalls given (emitCallEnd env arguments attributes spreads) := by
  have hend {noted : List Helper} : env.Notes given noted (Emit.statement
      (if arguments.isEmpty then "\x7d);" else "\x7d, " ++ arguments ++ ");")) fun _ _ => True := by
    refine .statement fun helpers => ?_
    split
    · exact .own rfl
    · exact ((Spelled.of_given hgiven).start _ rfl).stop _ rfl
  have hentry {noted : List Helper} {code : String}
      (hcode : env.options.inlineHelpers = true → Spelled given noted code) :
      env.Notes given noted (Emit.statement ("attributes: " ++ code)) fun _ _ => True :=
    .write fun hinline helpers hsub => ((hcode hinline).mono hsub).start _ rfl
  refine .ite ?_ (.ite ?_ hend)
  · exact (notes_spreadAttributes h).bind fun code noted _ hcode =>
      .next (hentry hcode) fun _ => hend
  · exact (notes_attributes .object (mem_attributeTexts h).1).bind fun code noted _ hcode =>
      .next (hentry hcode) fun _ => hend

theorem notes_loopIndex {key : Option String} (h : ∀ t ∈ key, given t) :
    env.Notes given known (loopIndex key) fun index _ => ∀ helpers, Spelled given helpers index := by
  refine .withState fun s => .next (.change fun _ => rfl) fun _ => .pure fun _ _ _ helpers => ?_
  cases key with
  | none => exact .numbered rfl _
  | some key => exact .of_given (h key rfl)

theorem spelled_itemLoop {index item : String} {helpers : List Helper}
    (hindex : Spelled given helpers index) (hitem : Spelled given helpers item) :
    Spelled given helpers (itemLoop index item) :=
  (((((hindex.start _ rfl).seam _ rfl hindex).seam _
    rfl hindex).seam _ rfl hitem).seam _ rfl
    hindex).stop _ rfl

theorem spelled_keyLoop {index item : String} {helpers : List Helper}
    (hindex : Spelled given helpers index) (hitem : Spelled given helpers item) :
    Spelled given helpers (keyLoop index item) :=
  (((hindex.start _ rfl).seam _ rfl hitem).seam _ rfl
    hindex).stop _ rfl

theorem spelled_listLoop {list : String} {helpers : List Helper}
    (hlist : Spelled given helpers list) : Spelled given helpers (listLoop list) :=
  ((hlist.start _ rfl).seam _ rfl hlist).stop _ rfl

theorem notes_emitStatements {codes : List String} (h : codes.all callsNothing) :
    env.NotesCalls given (emitStatements codes) := by
  rintro s _ _ _ - ⟨⟩
  refine ⟨Subset.refl _, fun h hh => .inl hh, fun _ => ⟨trivial, fun w hw => ?_⟩⟩
  obtain ⟨code, hcode, rfl⟩ := mem_map.mp hw
  exact Spelled.own (all_eq_true.mp h code hcode)

end Parts

/-! ## Trees -/

section Trees

variable {given : String → Prop}

-- The settings change on the way, but not their options.
mutual

theorem notes_node (env : WriterSetting) (node : Node) (h : ∀ t ∈ nodeTexts node, given t) :
    env.NotesCalls given (emitNode env node) := by
  cases node with rw [emitNode]
  | block body | namedBlock _ _ body _ => exact notes_block env body (by rwa [nodeTexts] at h)
  | tag head body =>
    rw [nodeTexts] at h
    obtain ⟨htag, hbody⟩ := forall_mem_append.mp h
    obtain ⟨hlabel, hattributes⟩ := forall_mem_append.mp htag
    let inner : WriterSetting := { env with depth := env.depth + 1 }
    have hspace : env.NotesCalls given
        (Emit.onlyIf (keepsSpace head) (Emit.change fun s => { s with keepSpace := false })) :=
      .onlyIf _ (.change fun _ => rfl)
    refine .next (notes_emitStartTag inner hlabel hattributes) fun _ => .withState fun s => ?_
    refine .ite ?_ ?_
    · exact .next (notes_emitClosed inner head _) fun _ => hspace
    · exact .next (.text _) fun _ => .next (notes_block inner body hbody) fun _ =>
        .next (notes_emitEndTag inner hlabel body) fun _ => hspace
  | text text html location => exact .text _
  | code head body =>
    rw [nodeTexts] at h
    obtain ⟨hsource, hbody⟩ := forall_mem_append.mp h
    obtain ⟨hsource, htrimmed⟩ := forall_mem_cons.mp hsource
    refine .ite ?_ ?_
    · exact .next (notes_emitValue (forall_mem_singleton.mp htrimmed)) fun _ =>
        notes_option env body rfl rfl hbody
    · exact .next (.statement fun _ => .of_given hsource) fun _ =>
        notes_option env body rfl rfl hbody
  | comment text buffer location =>
    exact .onlyIf _ (.next (notes_newline 1) fun _ => .text _)
  | blockComment text body buffer location =>
    rw [nodeTexts] at h
    exact .onlyIf _ (.next (notes_newline 1) fun _ => .next (.text _) fun _ =>
      .next (notes_block env body h) fun _ => .next (notes_newline 1) fun _ => .text _)
  | doctype name location => exact notes_doctype name
  | each item key list body otherwise location =>
    rw [nodeTexts] at h
    obtain ⟨hloop, hotherwise⟩ := forall_mem_append.mp h
    obtain ⟨hhead, hbody⟩ := forall_mem_append.mp hloop
    obtain ⟨hnames, hkey⟩ := forall_mem_append.mp hhead
    obtain ⟨hitem, hlist⟩ := forall_mem_cons.mp hnames
    have hblock := notes_block env body hbody
    have hitem (helpers : List Helper) : Spelled given helpers item := .of_given hitem
    have hlist (helpers : List Helper) : Spelled given helpers list :=
      .of_given (hlist list mem_cons_self)
    refine (notes_loopIndex fun t ht => hkey t (Option.mem_toList.mpr ht)).bind
      fun index noted _ hindex => Emit.Notes.mono ?_ (nil_subset noted)
    exact .next (.statement fun helpers => spelled_listLoop (hlist helpers)) fun _ =>
      .next (.onlyIf _ (.statement fun _ => .own rfl)) fun _ =>
      .next (.write fun hinline helpers _ => spelled_itemLoop (hindex hinline helpers) (hitem helpers))
        fun _ => .next hblock fun _ => .next (.statement fun _ => .own rfl) fun _ =>
      .next (notes_option env otherwise rfl rfl hotherwise) fun _ =>
      .next (.write fun hinline helpers _ => spelled_keyLoop (hindex hinline helpers) (hitem helpers))
        fun _ => .next hblock fun _ => .next (.statement fun _ => .own rfl) fun _ =>
      .next (notes_option env otherwise rfl rfl hotherwise) fun _ =>
      .statement fun _ => .own rfl
  | «while» test body location =>
    rw [nodeTexts] at h
    obtain ⟨htest, hbody⟩ := forall_mem_append.mp h
    refine .next (.statement fun _ => ?_) fun _ => .next (notes_block env body hbody) fun _ =>
      .statement fun _ => .own rfl
    exact ((Spelled.of_given (htest test mem_cons_self)).start _ rfl).stop _
      rfl
  | conditional first others otherwise =>
    rw [nodeTexts] at h
    obtain ⟨hbranches, hotherwise⟩ := forall_mem_append.mp h
    obtain ⟨hfirst, hothers⟩ := forall_mem_append.mp hbranches
    exact .next (notes_branch env first hfirst) fun _ => .next (notes_branches env others hothers)
      fun _ => notes_option env otherwise rfl rfl hotherwise
  | case subject body location =>
    rw [nodeTexts] at h
    obtain ⟨hsubject, hbody⟩ := forall_mem_append.mp h
    refine .next (.write fun _ helpers _ => ?_) fun _ => .next (notes_block env body hbody) fun _ =>
      .statement fun _ => .own rfl
    exact ((Spelled.of_given (hsubject subject mem_cons_self)).start _ rfl).stop _
      rfl
  | «when» value body location =>
    rw [nodeTexts] at h
    obtain ⟨hvalue, hbody⟩ := forall_mem_append.mp h
    refine .next (.write fun _ helpers _ => ?_) fun _ =>
      notes_option env body rfl rfl hbody
    show Spelled given helpers (branchCode value)
    unfold branchCode
    split
    · exact .own rfl
    · exact ((Spelled.of_given (hvalue value mem_cons_self)).start _ rfl).stop _
        rfl
  | mixin name parameters body location =>
    rw [nodeTexts] at h
    obtain ⟨hhead, hbody⟩ := forall_mem_append.mp h
    obtain ⟨hnames, hrest⟩ := forall_mem_append.mp hhead
    obtain ⟨hname, hnames⟩ := forall_mem_append.mp hnames
    exact .next (notes_emitMixinHead (hname _ mem_cons_self) hnames fun t ht =>
        hrest t (Option.mem_toList.mpr ht)) fun _ =>
      .next (notes_block { env with mixinDepth := env.mixinDepth + 1 } body hbody) fun _ =>
      .statement fun _ => .own rfl
  | call name arguments body attributes spreads location =>
    rw [nodeTexts] at h
    obtain ⟨hhead, hbody⟩ := forall_mem_append.mp h
    obtain ⟨hnames, hattributes⟩ := forall_mem_append.mp hhead
    obtain ⟨hname, harguments⟩ := forall_mem_cons.mp hnames
    have harguments := forall_mem_singleton.mp harguments
    refine notes_inFrame (.ite (.statement fun _ => spelled_mixinCall hname harguments) ?_)
    have hblock := notes_option { env with depth := 0, mixinDepth := env.mixinDepth + 1 } body
      (show all ["block: function()\x7b"] callsNothing from rfl)
      (show all [if attributes.isEmpty && spreads.isEmpty then "\x7d" else "\x7d,"]
        callsNothing by split <;> rfl) hbody
    exact .next (.statement fun _ => (spelled_mixinTarget hname).stop _ rfl)
      fun _ => .next hblock fun _ => notes_emitCallEnd harguments hattributes
  | mixinBlock location => exact notes_inFrame (.statement fun _ => .own rfl)
  | yieldBlock location => exact .done
  | filter | includeFilter | «include» | rawInclude | «extends» => exact .fail _

theorem notes_block (env : WriterSetting) (body : Block) (h : ∀ t ∈ blockTexts body, given t) :
    env.NotesCalls given (emitBlock env body) := by
  obtain ⟨nodes, location⟩ := body
  rw [emitBlock]
  exact .withState fun s => .next (.onlyIf _ (notes_indent 1 true)) fun _ =>
    notes_nodes env _ none nodes h

theorem notes_option (env : WriterSetting) {before after : List String} (body : Option Block)
    (hbefore : before.all callsNothing) (hafter : after.all callsNothing)
    (h : ∀ t ∈ optionTexts body, given t) :
    env.NotesCalls given (emitOption env before after body) := by
  cases body with
  | none =>
    rw [emitOption]
    exact .done
  | some body =>
    rw [emitOption]
    rw [optionTexts] at h
    exact .next (notes_emitStatements hbefore) fun _ => .next (notes_block env body h) fun _ =>
      notes_emitStatements hafter

theorem notes_nodes (env : WriterSetting) (indented : Bool) (before : Option Node)
    (nodes : List Node) (h : ∀ t ∈ nodesTexts nodes, given t) :
    env.NotesCalls given (emitNodes env indented before nodes) := by
  cases nodes with
  | nil =>
    rw [emitNodes]
    exact .done
  | cons node rest =>
    rw [nodesTexts] at h
    obtain ⟨hnode, hrest⟩ := forall_mem_append.mp h
    have hrest := notes_nodes env indented (some node) rest hrest
    rw [emitNodes]
    exact .next (.onlyIf _ (notes_indent 1 false)) fun _ => .ite hrest
      (.next (notes_emitDebugLine node) fun _ => .next (notes_node env node hnode) fun _ => hrest)

theorem notes_branch (env : WriterSetting) (branch : Branch) (h : ∀ t ∈ branchTexts branch, given t) :
    env.NotesCalls given (emitBranch env branch) := by
  obtain ⟨test, body, location⟩ := branch
  rw [emitBranch]
  rw [branchTexts] at h
  obtain ⟨htest, hbody⟩ := forall_mem_append.mp h
  refine .next (.statement fun _ => ?_) fun _ => .next (notes_block env body hbody) fun _ =>
    .statement fun _ => .own rfl
  exact ((Spelled.of_given (htest test mem_cons_self)).start _ rfl).stop _
    rfl

theorem notes_branches (env : WriterSetting) (branches : List Branch)
    (h : ∀ t ∈ branchesTexts branches, given t) :
    env.NotesCalls given (emitBranches env branches) := by
  cases branches with
  | nil =>
    rw [emitBranches]
    exact .done
  | cons branch branches =>
    rw [branchesTexts] at h
    obtain ⟨hbranch, hbranches⟩ := forall_mem_append.mp h
    rw [emitBranches]
    exact .next (.statement fun _ => .own rfl) fun _ =>
      .next (notes_branch env branch hbranch) fun _ => notes_branches env branches hbranches

end

theorem notes_tree (env : WriterSetting) (root : Block) (h : ∀ t ∈ blockTexts root, given t) :
    env.NotesCalls given (emitTree env root) :=
  .next (.onlyIf _ (.statement fun _ => .own rfl)) fun _ => notes_block env root h

end Trees

/-! ## Bodies -/

section Bodies

variable {given : String → Prop} {helpers : List Helper} {writes : List Write} {body : String}

theorem code_mem_segments {ws : List Write} {text : Option String} {source : String}
    (h : .code source ∈ segmentsAfter text ws) : .expression source ∈ ws := by
  induction ws generalizing text with
  | nil => cases text <;> simp [segmentsAfter] at h
  | cons w ws ih =>
    cases w with
    | expression e =>
      rw [segmentsAfter, mem_append, mem_cons] at h
      rcases h with h | h | h
      · cases text <;> simp at h
      · cases h
        exact mem_cons_self
      · exact mem_cons_of_mem _ (ih h)
    | _ => exact mem_cons_of_mem _ (ih h)

theorem Written.spelled {ws : List Write} {line : String} (h : Written ws line)
    (hws : ∀ w ∈ ws, w.IsSpelled given helpers) : Spelled given helpers line := by
  cases h with
  | @own w code hline =>
    have hw := hws w mem_cons_self
    cases w <;> cases hline <;> exact hw
  | @run ws _ _ _ sum left right hsum hparens =>
    have hoperands : ∀ code ∈ (segments ws).map Segment.operand, Spelled given helpers code := by
      intro code hcode
      obtain ⟨segment, hsegment, rfl⟩ := mem_map.mp hcode
      cases segment with
      | text text => exact .literal text
      | code source =>
        have hsource : Spelled given helpers source := hws _ (code_mem_segments hsegment)
        exact (hsource.start _ rfl).stop _ rfl
    have hspelled : Spelled given helpers sum := by
      rw [hsum]
      exact .intercalate _ rfl hoperands
    rcases hparens with ⟨rfl, rfl⟩ | ⟨rfl, rfl⟩
    · rw [String.append_empty, String.append_empty]
      exact (hspelled.start _ rfl).stop _ rfl
    · have hline := (hspelled.start "pug_html = pug_html + (" rfl).stop ");"
        rfl
      rw [show "pug_html = pug_html + (" = "pug_html = pug_html + " ++ "(" from rfl,
        show ");" = ")" ++ ";" from rfl] at hline
      simpa only [String.append_assoc, -String.reduceAppend] using hline

theorem exists_makes {pieces : List (List Write)} {out : Segmented} (h : Forall₂ Makes pieces out)
    {statement : Statement} (hmem : statement ∈ out) : ∃ piece ∈ pieces, Makes piece statement := by
  induction h with
  | nil => cases hmem
  | @cons piece s pieces out hmakes _ ih =>
    rcases mem_cons.mp hmem with rfl | hmem
    · exact ⟨piece, mem_cons_self, hmakes⟩
    · obtain ⟨other, hother, hmakes⟩ := ih hmem
      exact ⟨other, mem_cons_of_mem _ hother, hmakes⟩

theorem spelled_ofWrites (h : ∀ w ∈ writes, w.IsSpelled given helpers) :
    Spelled given helpers (Output.ofWrites writes).code := by
  obtain ⟨pieces, hcuts⟩ := cuts_ofWrites writes
  rw [Output.code_eq]
  refine .intercalate _ rfl fun line hline => ?_
  obtain ⟨statement, hstatement, rfl⟩ := mem_map.mp hline
  obtain ⟨piece, hpiece, hmakes⟩ := exists_makes hcuts.makes (mem_reverse.mp hstatement)
  refine hmakes.written.spelled fun w hw => h w ?_
  rw [← hcuts.all]
  exact mem_flatten.mpr ⟨piece, mem_reverse.mpr hpiece, hw⟩

/-- The names that stand around a body whose variables are parameters. -/
def localTexts (parse : Script.Parser) (body : String) (exclude : List String) : List String :=
  freshName body :: parameterNames parse body exclude

theorem spelled_arguments {names : List String} {object code : String} (hobject : given object)
    (hnames : ∀ name ∈ names, given name) (h : Spelled given helpers code) :
    Spelled given helpers (code ++ String.join (names.map (argument object))) := by
  induction names generalizing code with
  | nil => simpa using h
  | cons name names ih =>
    obtain ⟨hname, hnames⟩ := forall_mem_cons.mp hnames
    have hname : Spelled given helpers name := .of_given hname
    have hobject : Spelled given helpers object := .of_given hobject
    have hargument : Spelled given helpers (code ++ argument object name) := by
      have hparts := ((((((h.seam ",\"" rfl hname).seam "\" in " rfl
        hobject).seam " ? " rfl hobject).seam "." rfl hname).seam
        " : typeof " rfl hname).seam " !== \"undefined\" ? " rfl
        hname).stop " : undefined" rfl
      unfold argument
      simp only [← String.append_assoc]
      exact hparts
    rw [map_cons, String.join_cons, ← String.append_assoc]
    exact ih hnames hargument

theorem spelled_wrapLocals {parse : Script.Parser} {exclude : List String}
    (hnames : ∀ t ∈ localTexts parse body exclude, given t) (h : Spelled given helpers body) :
    Spelled given helpers (wrapLocals parse body exclude) := by
  obtain ⟨hobject, hnames⟩ := forall_mem_cons.mp hnames
  unfold wrapLocals
  dsimp only
  split
  · exact h
  · have hlist : Spelled given helpers (String.intercalate ", " (parameterNames parse body exclude)) :=
      .intercalate _ rfl fun name hname => .of_given (hnames name hname)
    have hhead := ((((Spelled.of_given hobject).start ";var " rfl).seam
      " = (locals || \x7b\x7d);(function (" rfl hlist).seam ") \x7b"
      rfl h).stop "\x7d.call(this" rfl
    exact (spelled_arguments hobject hnames hhead).stop "));" rfl

theorem spelled_withDebug {options : Options} (hinline : options.inlineHelpers = true)
    (hrethrow : options.debug = true → .rethrow ∈ helpers) (h : Spelled given helpers body) :
    Spelled given helpers (withDebug options body) := by
  unfold withDebug
  cases hdebug : options.debug with
  | false => exact h
  | true =>
    have hcall : options.helperPrefix ++ Helper.name .rethrow ++ "(" = Helper.callText .rethrow := by
      rw [Options.helperPrefix, hinline]
      rfl
    have htry {body source : String} (hbody : Spelled given helpers body)
        (hsource : callsNothing ("err, pug_debug_filename, pug_debug_line" ++ source ++ ");\x7d")) :
        Spelled given helpers ("var pug_debug_filename, pug_debug_line;try \x7b" ++ body ++
          "\x7d catch (err) \x7b" ++ (options.helperPrefix ++ Helper.name .rethrow) ++
          "(err, pug_debug_filename, pug_debug_line" ++ source ++ ");\x7d") := by
      have hcatch := (hbody.start "var pug_debug_filename, pug_debug_line;try \x7b"
        rfl).seam "\x7d catch (err) \x7b" rfl
        ((Spelled.own hsource).call (hrethrow hdebug))
      rw [← hcall] at hcatch
      rw [show "(err, pug_debug_filename, pug_debug_line" =
        "(" ++ "err, pug_debug_filename, pug_debug_line" from rfl]
      simpa only [String.append_assoc, -String.reduceAppend] using hcatch
    simp only [Bool.not_true, Bool.false_eq_true, if_false]
    cases options.sources with
    | none =>
      dsimp only
      exact htry h rfl
    | some sources =>
      dsimp only
      exact htry (((Spelled.constant _).start _ rfl).seam _ rfl h)
        rfl

end Bodies

/-! ## Programs -/

/-- The function of a program, without what stands before it. -/
def functionCode (parse : Script.Parser) (options : Options) (writes : List Write)
    (helpers : List Helper) : String :=
  "function " ++ options.name ++
    "(locals) \x7bvar pug_html = \"\", pug_mixins = \x7b\x7d, pug_interp;" ++
    withDebug options (withLocals parse options.locals helpers (Output.ofWrites writes).code) ++
    ";return pug_html;\x7d"

/-- The texts that a program takes over as they stand: those of the template, the name of the
function, and the names around a body whose variables are parameters. -/
def programTexts (parse : Script.Parser) (options : Options) (writes : List Write)
    (helpers : List Helper) (root : Block) : List String :=
  options.name :: localTexts parse (Output.ofWrites writes).code
    (helpers.map fun h => "pug_" ++ h.name) ++ blockTexts root

section Assemble

variable {parse : Script.Parser} {options : Options} {writes : List Write} {helpers : List Helper}

theorem mem_helpers_assemble {h : Helper} :
    h ∈ (assemble parse options writes helpers).helpers ↔ h ∈ helpers := by
  show h ∈ Helper.all.filter helpers.contains ↔ h ∈ helpers
  simp [Helper.mem_all]

/-- The order in which helpers have been noted does not matter, nor how often. -/
theorem assemble_congr {requested : List Helper} (hm : ∀ h, h ∈ requested ↔ h ∈ helpers) :
    assemble parse options writes requested = assemble parse options writes helpers := by
  have hf : Helper.all.filter requested.contains = Helper.all.filter helpers.contains := by
    refine filter_congr fun h _ => ?_
    rw [Bool.eq_iff_iff, contains_iff_mem, contains_iff_mem]
    exact hm h
  unfold assemble
  rw [hf]

theorem code_assemble : (assemble parse options writes helpers).code =
      String.join ((Helper.bundled (assemble parse options writes helpers).helpers).map
        fun h => h.source ++ "\n") ++
      functionCode parse options writes (assemble parse options writes helpers).helpers := by
  rw [← Helper.bundle_eq_join]
  unfold assemble functionCode
  simp only [String.append_assoc]

end Assemble

theorem helpers_startState (options : Options) : (startState options).helpers =
      if options.debug && options.inlineHelpers then [.rethrow] else [] := by
  unfold startState
  cases options.doctype with
  | none => rfl
  | some name => rfl

theorem Write.IsSpelled.imp {given more : String → Prop} {helpers : List Helper} {w : Write}
    (h : w.IsSpelled given helpers) (himp : ∀ t, given t → more t) : w.IsSpelled more helpers := by
  cases w with
  | text => trivial
  | _ =>
    obtain ⟨chunks, hchunks⟩ := h
    exact ⟨chunks, hchunks.code, fun t ht => himp t (hchunks.given t ht), hchunks.calls⟩

theorem spelled_functionCode {parse : Script.Parser} {options : Options} {writes : List Write}
    {helpers : List Helper} {root : Block} (hinline : options.inlineHelpers = true)
    (hrethrow : options.debug = true → .rethrow ∈ helpers)
    (h : ∀ w ∈ writes, w.IsSpelled (· ∈ blockTexts root) helpers) :
    Spelled (· ∈ programTexts parse options writes helpers root) helpers
      (functionCode parse options writes helpers) := by
  have hbody : Spelled (· ∈ programTexts parse options writes helpers root) helpers
      (Output.ofWrites writes).code :=
    spelled_ofWrites fun w hw => (h w hw).imp fun t ht => mem_append_right _ ht
  have hlocals : Spelled (· ∈ programTexts parse options writes helpers root) helpers
      (withLocals parse options.locals helpers (Output.ofWrites writes).code) := by
    unfold withLocals
    split
    · exact hbody.start _ rfl
    · exact spelled_wrapLocals (fun t ht => mem_append_left _ (mem_cons_of_mem _ ht)) hbody
    · exact hbody
  have hdebug := (spelled_withDebug hinline hrethrow hlocals).start
    "(locals) \x7bvar pug_html = \"\", pug_mixins = \x7b\x7d, pug_interp;" rfl
  have hname : options.name ∈ programTexts parse options writes helpers root := mem_cons_self
  have hfunction := (hdebug.gap "function " rfl hname).stop
    ";return pug_html;\x7d" rfl
  rw [functionCode]
  simpa only [String.append_assoc] using hfunction

theorem emitTree_noted {evaluator : Evaluator} {mixins : MixinUse} {options : Options}
    {root : Block} {writes : List Write} {noted : WriterState}
    (hrun : emitTree { evaluator, mixins, options } root (startState options) =
      .ok ((), writes, noted)) :
    (∀ h ∈ noted.helpers, options.inlineHelpers = true ∧ h.isInternal = false) ∧
      (options.debug = true → options.inlineHelpers = true → .rethrow ∈ noted.helpers) ∧
      (options.inlineHelpers = true →
        ∀ w ∈ writes, w.IsSpelled (· ∈ blockTexts root) noted.helpers) := by
  obtain ⟨hsub, hnew, hspelled⟩ := notes_tree { evaluator, mixins, options } root (fun _ h => h) _ _ _ _
    (nil_subset _) hrun
  rw [helpers_startState] at hsub hnew
  refine ⟨fun h hh => ?_, fun hdebug hinline => ?_, fun hinline => (hspelled hinline).2⟩
  · rcases hnew h hh with hstart | hexported
    · cases hcopies : options.debug && options.inlineHelpers with
      | false =>
        rw [hcopies] at hstart
        cases hstart
      | true =>
        rw [hcopies] at hstart
        rw [mem_singleton.mp hstart]
        exact ⟨(Bool.and_eq_true_iff.mp hcopies).2, rfl⟩
    · exact hexported
  · rw [hdebug, hinline] at hsub
    exact hsub mem_cons_self

end Program
end PugTemplate
