import PugTemplate.Proofs.Program.Agreement
import PugTemplate.Proofs.Program.Content
import PugTemplate.Proofs.Program.Parts
/-!
# Layout keeps the content

Two options are about layout only: the indentation of the markup, and the notes of lines. Whatever
they are, the same trees are refused, with the same diagnostics, and the bodies of the programs have
the same content. Each program is compared with the one that has no layout at all.
-/

namespace PugTemplate

open String
namespace Program

open Emit WriterSetting

/-! ## Actions that emit the same content -/

def byContent : Likeness where
  first := 0
  second := 0
  Alike ws us := SameContent (ws.map Write.part) (us.map Write.part)
  refl _ := .refl _
  append h h' := by
    rw [List.map_append, List.map_append]
    exact h.append h'

theorem agrees_write_nothing {w : Write} (hw : SameContent [w.part] []) (c : Bool) :
    Agrees byContent Eq (onlyIf c (write w)) (pure ()) := by
  intro s t hs
  cases c with
  | true => exact .done rfl hw hs
  | false => exact .done rfl (.refl _) hs

/-! ## Settings without layout -/

def Options.bare (options : Options) : Options :=
  { options with debug := false, indentation := none }

def WriterSetting.bare (env : WriterSetting) : WriterSetting :=
  { env with options := env.options.bare }

/-- The markup is indented by spaces and tabs, or not at all. -/
def Options.HasBlankLayout (options : Options) : Prop :=
  ∀ c ∈ (options.indentation.getD "").toList, c = ' ' ∨ c = '\t'

section Parts

variable {env : WriterSetting}

/-! ### Layout -/

theorem isBlank_copies {content : String} (h : ∀ c ∈ content.toList, Text.isBlank c)
    (n : Nat) : ∀ c ∈ (copies n content).toList, Text.isBlank c := by
  induction n with
  | zero => simp [copies]
  | succ n ih =>
    have hco : copies (n + 1) content = content ++ copies n content := by
      simp [copies, List.replicate_succ, join_cons]
    intro c hc
    rw [hco, toList_append, List.mem_append] at hc
    exact hc.elim (h c) (ih c)

theorem isBlank_indentationText (hen : env.options.HasBlankLayout) (levels : Nat) :
    ∀ c ∈ (env.indentationText levels).toList, Text.isBlank c := by
  apply isBlank_copies
  intro c hc
  rcases hen c hc with rfl | rfl
  · decide
  · decide

theorem agrees_indent (hen : env.options.HasBlankLayout) (more : Nat) (newline c : Bool) :
    Agrees byContent Eq (onlyIf c (env.indent more newline)) (pure ()) := by
  cases c with
  | false => exact .pure rfl
  | true =>
    let line := (if newline then "\n" else "") ++ env.indentationText (env.depth + more - 1)
    have hl : SameContent [(Write.text line).part] [] := by
      apply SameContent.blank
      intro c hc
      rw [toList_append, List.mem_append] at hc
      rcases hc with hc | hc
      · cases newline with
        | true =>
          obtain rfl : c = '\n' := by simpa using hc
          decide
        | false => exact absurd hc (by simp)
      · exact isBlank_indentationText hen _ c hc
    have hj :
        SameContent [(Write.statement "pug_html = pug_html + pug_indent.join(\"\");").part] [] :=
      .note (by decide)
    have hb := (agrees_write_nothing hl true).seq fun _ =>
      agrees_write_nothing hj (0 < env.mixinDepth)
    rwa [Emit.pure_bind] at hb

theorem agrees_emitDebugLine (node : Node) :
    Agrees byContent Eq (emitDebugLine env node) (emitDebugLine env.bare node) := by
  have hn : isLineNote (debugLine node.location) := by
    unfold isLineNote debugLine
    rw [toList_append, toList_append, toList_append]
    rfl
  exact agrees_write_nothing (w := .statement (debugLine node.location)) (.note (by rw [hn]; rfl)) _

theorem agrees_inFrame {x y : Emit Unit} (hx : Agrees byContent Eq x y) :
    Agrees byContent Eq (inFrame env x) (inFrame env.bare y) := by
  have hp (frame : String) :
      SameContent [(Write.statement ("pug_indent.push(" ++ frame ++ ");")).part] [] := by
    have hf : isFrameNote ("pug_indent.push(" ++ frame ++ ");") := by
      unfold isFrameNote
      rw [Bool.or_eq_true, toList_append, toList_append]
      exact .inr rfl
    exact .note (by rw [hf, Bool.or_true])
  have hpo : SameContent [(Write.statement "pug_indent.pop();").part] [] := .note (by decide)
  exact (agrees_write_nothing (hp _) _).seq fun _ => hx.seq fun _ => agrees_write_nothing hpo _

end Parts

/-! ## Trees -/

theorem relates_agrees : RelatesTrees (fun _ => True) Eq
    (fun env env' => env.options.HasBlankLayout ∧ env' = env.bare)
    fun _ x y => Agrees byContent Eq x y where
  pure _ := .pure rfl
  bind := .seq
  withState := .withState
  text := .text
  value _ := .write _
  doctypeWritten := .change fun _ _ _ => rfl
  tagWritten := .change fun _ _ _ => rfl
  evaluator hen := hen.2 ▸ rfl
  helper hen _ _ := hen.2 ▸ (Agrees.useHelpers rfl _).seq fun _ => .pure rfl
  attributes hen _ _ :=
    hen.2 ▸ .withState fun _ _ _ => (Agrees.useHelpers rfl _).seq fun _ => .pure rfl
  indent hen more newline _ := hen.2 ▸ agrees_indent hen.1 more newline _
  choose _ := .change fun _ _ _ => rfl
  keepSpace _ := .change fun _ _ _ => rfl
  write := .write
  loop key _ _ h := (Agrees.loopIndex key).bind fun i j hij => h i j <| by
    obtain rfl | ⟨m, n, rfl, rfl, rfl⟩ := hij <;> rfl
  itemLoop h _ := h ▸ .write _
  keyLoop h _ := h ▸ .write _
  emitStatements := .emitStatements
  emitClosed _ _ _ := .withState fun _ _ _ => (Agrees.text _).seq fun _ =>
    .ite (.fail _) (.pure rfl)
  unsupported _ _ _ := .fail _
  children _ _ _ _ := trivial
  mixins hen := hen.2 ▸ rfl
  emitDebugLine hen node := hen.2 ▸ agrees_emitDebugLine node
  inFrame hen _ _ hx := hen.2 ▸ agrees_inFrame hx
  inTag hen := ⟨hen.1, hen.2 ▸ rfl⟩
  inMixin hen := ⟨hen.1, hen.2 ▸ rfl⟩
  inCall hen := ⟨hen.1, hen.2 ▸ rfl⟩

theorem agrees_tree (env : WriterSetting) (hen : env.options.HasBlankLayout) (root : Block) :
    Agrees byContent Eq (emitTree env root) (emitTree env.bare root) := by
  have hs : SameContent [(Write.statement "var pug_indent = [];").part] [] :=
    .note (by decide)
  exact (agrees_write_nothing hs _).seq fun _ =>
    relates_agrees.block ⟨hen, rfl⟩ root fun _ _ => trivial

/-! ## Two layouts -/

theorem agrees_startState (options : Options) :
    byContent.States (startState options) (startState options.bare) := by
  have hd : options.bare.doctype = options.doctype := rfl
  unfold startState
  rw [hd]
  cases options.doctype with
  | none | some name => exact ⟨[], 0, rfl, rfl⟩

/-- **Layout keeps the content**: with two layouts that differ in the notes of lines and in the
indentation, by spaces and tabs or not at all, a tree is refused with the same diagnostic, or it has
two programs whose bodies have the same content. -/
theorem layout_keeps_content (parse : Script.Parser) (evaluator : Evaluator) (mixins : MixinUse)
    (options : Options) (debug : Bool) (indentation : Option String) (root : Block)
    (hblank : options.HasBlankLayout)
    (hblank' : Options.HasBlankLayout { options with debug, indentation }) :
    let other : Options := { options with debug, indentation }
    (∃ d, generate parse evaluator mixins options root = .error d ∧
        generate parse evaluator mixins other root = .error d) ∨
      ∃ ws s ws' s',
        emitTree { evaluator, mixins, options } root (startState options) = .ok ((), ws, s) ∧
        emitTree { evaluator, mixins, options := other } root (startState other) =
          .ok ((), ws', s') ∧
        generate parse evaluator mixins options root = .ok (assemble parse options ws s.helpers) ∧
        generate parse evaluator mixins other root = .ok (assemble parse other ws' s'.helpers) ∧
        content (Segmented.ofWrites ws).parts = content (Segmented.ofWrites ws').parts := by
  intro other
  have hruns := agrees_tree { evaluator, mixins, options } hblank root _ _
    (agrees_startState options)
  have hruns' := agrees_tree { evaluator, mixins, options := other } hblank' root _ _
    (agrees_startState other)
  -- without layout, both options are the same
  have hbare : other.bare = options.bare := rfl
  simp only [WriterSetting.bare, hbare] at hruns hruns'
  generalize hrun : emitTree { evaluator, mixins, options } root (startState options) = run at hruns
  generalize hrun' : emitTree { evaluator, mixins, options := other } root (startState other) = run'
    at hruns'
  generalize emitTree { evaluator, mixins, options := options.bare } root
    (startState options.bare) = plain at hruns hruns'
  cases hruns with
  | fail d =>
    cases hruns' with
    | fail => exact .inl ⟨d, generate_of_error hrun, generate_of_error hrun'⟩
  | @done _ _ ws us s t _ hcontent _ =>
    cases hruns' with
    | @done _ _ ws' _ s' _ _ hcontent' _ =>
      refine .inr ⟨ws, s, ws', s', rfl, rfl, generate_of_ok hrun, generate_of_ok hrun', ?_⟩
      have hws := (sameContent_ofWrites ws).trans hcontent
      have hws' := (sameContent_ofWrites ws').trans hcontent'
      exact (hws.trans hws'.symm).content_eq

/-- A tag with a computed name, a text and a place for content, with all layout there is and with
none. -/
theorem layout_keeps_content_tag :
    let root : Block :=
      ⟨[.tag { label := .expression "tag", selfClosing := true, location := { line := 1 } } ⟨[], {}⟩,
        .text "a b" false { line := 2 }, .mixinBlock { line := 3 }], {}⟩
    let options : Options := { debug := true, indentation := some " \t" }
    let other : Options := { debug := false, indentation := none }
    let ws : List Write :=
      [.statement "var pug_indent = [];", .statement ";pug_debug_line = 1;", .text "\n", .text "<",
        .expression "tag", .text "/>", .statement ";pug_debug_line = 2;", .text "a b",
        .statement ";pug_debug_line = 3;", .statement "pug_indent.push(\"\");",
        .statement "block && block();", .statement "pug_indent.pop();"]
    let ws' : List Write :=
      [.text "<", .expression "tag", .text "/>", .text "a b", .statement "block && block();"]
    options.HasBlankLayout ∧ other.HasBlankLayout ∧
      emitTree { evaluator := .foldNothing, options } root (startState options) =
        .ok ((), ws, { tagWritten := true }) ∧
      emitTree { evaluator := .foldNothing, options := other } root (startState other) =
        .ok ((), ws', { tagWritten := true }) ∧
      content (Segmented.ofWrites ws).parts = content (Segmented.ofWrites ws').parts := by
  intro root options other ws ws'
  have hblank : options.HasBlankLayout := by simp [Options.HasBlankLayout, options]
  have hblank' : other.HasBlankLayout := by simp [Options.HasBlankLayout, other]
  have hrun : emitTree { evaluator := .foldNothing, options } root (startState options) =
      .ok ((), ws, { tagWritten := true }) := rfl
  have hrun' : emitTree { evaluator := .foldNothing, options := other } root (startState other) =
      .ok ((), ws', { tagWritten := true }) := rfl
  refine ⟨hblank, hblank', hrun, hrun', ?_⟩
  rcases layout_keeps_content (fun _ => none) .foldNothing {} options false none root hblank hblank' with
    ⟨d, hfail, -⟩ | ⟨vs, s, vs', s', hvs, hvs', -, -, hcontent⟩
  · exact absurd ((generate_of_ok hrun).symm.trans hfail) (by simp)
  · rw [hrun] at hvs
    rw [show ({ options with debug := false, indentation := none } : Options) = other from rfl,
      hrun'] at hvs'
    cases hvs
    cases hvs'
    exact hcontent

end Program
end PugTemplate
