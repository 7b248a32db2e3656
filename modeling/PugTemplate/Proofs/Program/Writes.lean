import PugTemplate.Proofs.Program.Choices
import PugTemplate.Proofs.Program.Mixins
/-!
# What the program of a tree writes

One walk through a tree compares its writes with its nodes. Every statement about mixins is the
statement of a node that the program comes to, in the same order. And if the choices of the tree hold
nothing but branches, what stands behind the start of a choice is a label or its end, unless the line
of a first branch is noted.
-/

namespace PugTemplate

open List
namespace Program

open Emit WriterSetting

/-! ## Actions -/

/-- The action emits writes that show the nodes. If `P` holds they are orderly too. -/
def Tells {α : Type} (P : Prop) (use : MixinUse) (nodes : List Node) (bad : Bool) (x : Emit α) :
    Prop :=
  Emits x fun ws => Shown use nodes ws ∧ (P → Orderly bad ws)

variable {P : Prop} {use : MixinUse} {nodes : List Node}

namespace Tells

variable {α β : Type} {a b : List Node} {m n : Bool} {x : Emit α} {f : α → Emit β}

theorem bind (hx : Tells P use a m x) (hf : ∀ r, Tells P use b n (f r)) :
    Tells P use (a ++ b) (m || n) (x >>= f) :=
  Emits.bind hx hf fun _ _ hfi hs => ⟨hfi.1.append hs.1, fun hp => (hfi.2 hp).append (hs.2 hp)⟩

theorem of_quiet (h : Quiet x) : Tells P use [] false x := by
  refine Emits.imp h fun ws hws => ⟨.of_others fun w hw => ?_, fun _ => .of_plain fun w hw => ?_⟩
  all_goals
    have hq := hws w hw
    cases w with
    | statement code => first | rfl | simpa [Write.isQuiet, Write.isMixinStatement] using hq
    | choice => exact absurd hq (by simp [Write.isQuiet])
    | _ => rfl

theorem quiet_bind (hx : Quiet x) (hf : ∀ r, Tells P use b n (f r)) : Tells P use b n (x >>= f) := by
  simpa using (of_quiet hx).bind hf

theorem bind_quiet (hx : Tells P use a m x) (hf : ∀ r, Quiet (f r)) : Tells P use a m (x >>= f) := by
  simpa using hx.bind fun r => of_quiet (hf r)

theorem congr (hx : Tells P use a m x) (ha : a = b) (hm : m = n) : Tells P use b n x := ha ▸ hm ▸ hx

theorem statement {node : Node} {code : String} (hc : ownCode? node = some code)
    (hk : isUnusedMixin use node = false) : Tells P use [node] false (Emit.statement code) := by
  intro s u ws t h
  obtain ⟨-, rfl, -⟩ := h
  exact ⟨.node node hc hk .nil, fun _ => .of_plain (by simp [Write.startsChoice])⟩

theorem branch (value : String) : Tells P use [] false (Emit.write (.branch value)) := by
  intro s u ws t h
  obtain ⟨-, rfl, -⟩ := h
  exact ⟨.other _ rfl .nil, fun _ => .of_plain (by simp [Write.startsChoice])⟩

end Tells

/-! ## Parts -/

/-- Blank texts have no statements of their own, and there are no choices in them. -/
theorem reached_of_blank (use : MixinUse) (h : nodes.all isBlankNode) :
    reachedNodes use nodes = [] ∧ nodesNoteBranch use nodes = false := by
  induction nodes with
  | nil => simp [reachedNodes, nodesNoteBranch]
  | cons node rest ih =>
    simp only [all_cons, Bool.and_eq_true] at h
    cases node with
    | text text html location =>
      simp [reachedNodes, reachedNode, nodesNoteBranch, notesBranch, ih h.2]
    | _ => exact absurd h.1 (by simp [isBlankNode])

theorem tells_emitClosed (env : WriterSetting) (head : TagHead) (body : Block) :
    Tells P env.mixins (reachedBlock env.mixins body)
      (env.options.debug && blockNotesBranch env.mixins body) (emitClosed head body.nodes) := by
  obtain ⟨nodes, location⟩ := body
  cases hb : nodes.all isBlankNode with
  | true =>
    obtain ⟨hr, hn⟩ := reached_of_blank env.mixins hb
    exact (Tells.of_quiet (quiet_emitClosed head nodes)).congr hr.symm (by simp [blockNotesBranch, hn])
  | false =>
    unfold emitClosed
    simp only [hb, Bool.not_false, if_true]
    exact .quiet_bind .state fun _ => .quiet_bind (.text _) fun _ => Emits.fail _

theorem tells_emitMixinHead {name : String} (hk : use.keeps name)
    (parameters : Option String) (body : Block) (location : Location) :
    Tells P use [.mixin name parameters body location] false (emitMixinHead name parameters) := by
  have hh : Tells P use [.mixin name parameters body location] false (statement
      (mixinTarget name ++ " = pug_interp = function(" ++
        String.intercalate "," (splitParameters parameters).1 ++ ")\x7b")) :=
    .statement rfl (by simp [isUnusedMixin, hk])
  refine hh.bind_quiet fun _ => .bind (.statement (by decide)) fun _ => ?_
  split
  · exact .pure _
  · refine .bind (.statement ?_) fun _ => .bind (.statement ?_) fun _ => .bind (.statement ?_)
      fun _ => .statement (by decide)
    all_goals
      apply isMixinCode_eq_false
      repeat apply startsOtherwise_append
      decide

theorem tells_inFrame (env : WriterSetting) {action : Emit Unit} {bad : Bool}
    (h : Tells P use nodes bad action) : Tells P use nodes bad (inFrame env action) := by
  have hp (frame : String) : Quiet (statement ("pug_indent.push(" ++ frame ++ ");")) := by
    exact .statement
      (isMixinCode_eq_false (startsOtherwise_append _ (startsOtherwise_append _ (by decide))))
  exact .quiet_bind (.onlyIf _ (hp _)) fun _ =>
    h.bind_quiet fun _ => .onlyIf _ (.statement (by decide))

theorem tells_choice (env : WriterSetting) (subject : String) (body : Block)
    (hb : P → body.nodes.all isBranchNode) {bad : Bool}
    (h : Tells P use nodes bad (emitBlock env body)) :
    Tells P use nodes ((env.options.debug && startsAtLine body.nodes) || bad) (do
      Emit.write (.choice subject)
      emitBlock env body
      Emit.statement "\x7d") := by
  intro s a ws t hrun
  obtain ⟨_, start, t₁, ws₁, hs, hb', rfl⟩ := bind_eq_ok.mp hrun
  obtain ⟨_, inner, t₂, ws₂, hi, hen, rfl⟩ := bind_eq_ok.mp hb'
  obtain ⟨-, rfl, -⟩ := hs
  obtain ⟨-, rfl, -⟩ := hen
  obtain ⟨hsh, ho⟩ := h _ _ inner _ hi
  refine ⟨.other _ rfl ?_, fun hp => ?_⟩
  · simpa using hsh.append (.other (.statement "\x7d") (by decide) .nil)
  · -- the block is orderly in itself, and starts with its first branch
    rw [emitBlock_branches env body (hb hp)] at hi
    exact (ho hp).choice (emits_branches env _ none (hb hp) _ _ inner _ hi) subject

/-! ## Trees -/

mutual

/-- **A node** that is not left out shows the nodes that its program comes to, and breaks a choice
exactly if it notes the line of a first branch. -/
theorem tells_node (env : WriterSetting) (node : Node)
    (hk : isUnusedMixin env.mixins node = false) (hn : P → isBranched node) :
    Tells P env.mixins (reachedNode env.mixins node)
      (env.options.debug && notesBranch env.mixins node) (emitNode env node) := by
  cases node with simp only [emitNode, reachedNode, notesBranch, Bool.and_false]
  | block body | namedBlock _ _ body _ => exact tells_block env body hn
  | tag head body =>
    refine .quiet_bind (quiet_emitStartTag _ head) fun _ => .quiet_bind .state fun s => ?_
    split
    · exact (tells_emitClosed env head body).bind_quiet fun _ => .onlyIf _ (.change _)
    · exact .quiet_bind (.text _) fun _ =>
        (tells_block { env with depth := env.depth + 1 } body hn).bind_quiet fun _ =>
          .bind (quiet_emitEndTag _ head body) fun _ => .onlyIf _ (.change _)
  | text text html location => exact .of_quiet (.text text)
  | code head body =>
    cases hbu : head.buffer with
    | true =>
      exact .quiet_bind (quiet_emitValue env head) fun _ =>
        tells_option env (by decide) (by decide) body hn
    | false =>
      have hc : ownCode? (.code head body) = some head.source := by simp [ownCode?, hbu]
      exact (Tells.statement hc hk).bind fun _ =>
        tells_option env (by decide) (by decide) body hn
  | comment text buffer location =>
    exact .of_quiet (.onlyIf _ (.bind (quiet_newline env 1) fun _ => .text _))
  | blockComment text body buffer location =>
    cases buffer with
    | false => exact (Tells.of_quiet (.pure ())).congr rfl (by simp)
    | true =>
      exact .quiet_bind (quiet_newline env 1) fun _ => .quiet_bind (.text _) fun _ =>
        (tells_block env body hn).bind_quiet fun _ =>
          .bind (quiet_newline env 1) fun _ => .text _
  | doctype name location => exact .of_quiet (quiet_doctype name)
  | each item key list body otherwise location =>
    have hl (index : String) : isMixinCode (listLoop list) = false ∧
        isMixinCode (itemLoop index item) = false ∧ isMixinCode (keyLoop index item) = false := by
      unfold listLoop itemLoop keyLoop
      refine ⟨?_, ?_, ?_⟩
      all_goals
        apply isMixinCode_eq_false
        repeat apply startsOtherwise_append
        decide
    simp only [isBranched, Bool.and_eq_true] at hn
    have hb := tells_block env body fun hp => (hn hp).1
    have ho {before after : List String} (hbe : ∀ code ∈ before, isMixinCode code = false)
        (haf : ∀ code ∈ after, isMixinCode code = false) :=
      tells_option env hbe haf otherwise fun hp => (hn hp).2
    -- the block and what is written instead of it both come twice
    have htwice (d m n : Bool) : (d && (m || n)) =
        ((d && m) || ((d && n) || ((d && m) || (d && n)))) := by
      cases d <;> simp [Bool.or_left_comm]
    simp only [append_assoc, htwice]
    refine .quiet_bind (quiet_loopIndex key) fun index => ?_
    obtain ⟨hli, hi, hkey⟩ := hl index
    refine .quiet_bind (.statement hli) fun _ => .quiet_bind (.onlyIf _ (.statement (by decide)))
      fun _ => .quiet_bind (.statement hi) fun _ => ?_
    refine hb.bind fun _ => .quiet_bind (.statement (by decide)) fun _ =>
      (ho (by decide) (by decide)).bind fun _ => .quiet_bind (.statement hkey) fun _ => ?_
    exact hb.bind fun _ => .quiet_bind (.statement (by decide)) fun _ =>
      (ho (by decide) (by decide)).bind_quiet fun _ => .statement (by decide)
  | «while» test body location =>
    have hw : isMixinCode ("while (" ++ test ++ ") \x7b") = false :=
      isMixinCode_eq_false (startsOtherwise_append _ (startsOtherwise_append _ (by decide)))
    exact .quiet_bind (.statement hw) fun _ =>
      (tells_block env body hn).bind_quiet fun _ => .statement (by decide)
  | conditional first others otherwise =>
    simp only [isBranched, Bool.and_eq_true] at hn
    simp only [Bool.and_or_distrib_left, Bool.or_assoc]
    exact (tells_branch env first fun hp => (hn hp).1.1).bind fun _ =>
      (tells_branches env others fun hp => (hn hp).1.2).bind fun _ =>
        tells_option env (by decide) (by decide) otherwise fun hp => (hn hp).2
  | case subject body location =>
    simp only [isBranched, Bool.and_eq_true] at hn
    rw [Bool.and_or_distrib_left]
    exact tells_choice env subject body (fun hp => (hn hp).1)
      (tells_block env body fun hp => (hn hp).2)
  | «when» value body location =>
    exact (Tells.branch value).bind fun _ => tells_option env (by decide) (by decide) body hn
  | mixin name parameters body location =>
    have hke : env.mixins.keeps name := by simpa [isUnusedMixin] using hk
    rw [if_pos hke]
    exact (tells_emitMixinHead hke parameters body location).bind fun _ =>
      (tells_block { env with mixinDepth := env.mixinDepth + 1 } body hn).bind_quiet fun _ =>
        .statement (by decide)
  | call name arguments body attributes spreads location =>
    refine tells_inFrame env ?_
    split
    · next hp =>
      have hb : body = none := by
        simp only [Bool.and_eq_true, Option.isNone_iff_eq_none] at hp
        exact hp.1
      subst hb
      have hc : ownCode? (.call name arguments none attributes spreads location) =
          some (mixinTarget name ++ "(" ++ arguments.getD "" ++ ");") := by
        rw [ownCode?, if_pos hp]
      exact (Tells.statement hc hk).congr rfl (by simp [optionNotesBranch])
    · next hp =>
      have hc : ownCode? (.call name arguments body attributes spreads location) =
          some (mixinTarget name ++ ".call(\x7b") := by
        rw [ownCode?, if_neg hp]
      have ha : ∀ code ∈ [if attributes.isEmpty && spreads.isEmpty then "\x7d" else "\x7d,"],
          isMixinCode code = false := by
        intro code hm
        obtain rfl := mem_singleton.1 hm
        split <;> decide
      exact (Tells.statement hc hk).bind fun _ =>
        (tells_option { env with depth := 0, mixinDepth := env.mixinDepth + 1 } (by decide)
          ha body hn).bind_quiet fun _ => quiet_emitCallEnd env _ _ _
  | mixinBlock location => exact tells_inFrame env (.of_quiet (.statement (by decide)))
  | yieldBlock location => exact .of_quiet (.pure ())
  | filter | includeFilter | «include» | rawInclude | «extends» => exact Emits.fail _

/-- **A block** shows the nodes that its program comes to, and breaks a choice exactly if it notes
the line of a first branch. -/
theorem tells_block (env : WriterSetting) (body : BlockOf Node) (hb : P → isBranchedBlock body) :
    Tells P env.mixins (reachedBlock env.mixins body)
      (env.options.debug && blockNotesBranch env.mixins body) (emitBlock env body) := by
  cases body with
  | mk nodes location =>
    simp only [emitBlock, reachedBlock, blockNotesBranch]
    exact .quiet_bind .state fun _ => .quiet_bind (.onlyIf _ (quiet_indent env 1 true)) fun _ =>
      tells_nodes env _ none nodes hb

theorem tells_option (env : WriterSetting) {before after : List String}
    (hbe : ∀ code ∈ before, isMixinCode code = false)
    (haf : ∀ code ∈ after, isMixinCode code = false) (body : Option (BlockOf Node))
    (hb : P → isBranchedOption body) :
    Tells P env.mixins (reachedOption env.mixins body)
      (env.options.debug && optionNotesBranch env.mixins body)
      (emitOption env before after body) := by
  cases body with simp only [emitOption, reachedOption, optionNotesBranch, Bool.and_false]
  | none => exact .of_quiet (.pure ())
  | some body =>
    exact .quiet_bind (quiet_emitStatements hbe) fun _ =>
      (tells_block env body hb).bind_quiet fun _ => quiet_emitStatements haf

theorem tells_nodes (env : WriterSetting) (indented : Bool) (before : Option Node)
    (nodes : List Node) (hn : P → areBranched nodes) :
    Tells P env.mixins (reachedNodes env.mixins nodes)
      (env.options.debug && nodesNoteBranch env.mixins nodes)
      (emitNodes env indented before nodes) := by
  cases nodes with simp only [emitNodes, reachedNodes, nodesNoteBranch, Bool.and_false]
  | nil => exact .of_quiet (.pure ())
  | cons node rest =>
    simp only [areBranched, Bool.and_eq_true] at hn
    have hr := tells_nodes env indented (some node) rest fun hp => (hn hp).2
    refine .quiet_bind (.onlyIf _ (quiet_indent env 1 false)) fun _ => ?_
    cases hu : isUnusedMixin env.mixins node with
    | true =>
      cases node with
      | mixin name parameters body location =>
        have hk : env.mixins.keeps name = false := by simpa [isUnusedMixin] using hu
        simp only [reachedNode, hk]
        exact Emits.imp hr fun _ h => ⟨.leftOut _ hu h.1, h.2⟩
      | _ => exact absurd hu (by simp [isUnusedMixin])
    | false =>
      simp only [Bool.not_false, Bool.true_and, Bool.and_or_distrib_left]
      exact .quiet_bind (quiet_emitDebugLine env node) fun _ =>
        (tells_node env node hu fun hp => (hn hp).1).bind fun _ => hr

theorem tells_branch (env : WriterSetting) (branch : BranchOf Node)
    (hb : P → isBranchedBranch branch) :
    Tells P env.mixins (reachedBranch env.mixins branch)
      (env.options.debug && branchNotesBranch env.mixins branch) (emitBranch env branch) := by
  cases branch with
  | mk test body location =>
    have hi : isMixinCode ("if (" ++ test ++ ") \x7b") = false :=
      isMixinCode_eq_false (startsOtherwise_append _ (startsOtherwise_append _ (by decide)))
    simp only [emitBranch, reachedBranch, branchNotesBranch]
    exact .quiet_bind (.statement hi) fun _ =>
      (tells_block env body hb).bind_quiet fun _ => .statement (by decide)

theorem tells_branches (env : WriterSetting) (branches : List (BranchOf Node))
    (hb : P → areBranchedBranches branches) :
    Tells P env.mixins (reachedBranches env.mixins branches)
      (env.options.debug && branchesNoteBranch env.mixins branches)
      (emitBranches env branches) := by
  cases branches with simp only [emitBranches, reachedBranches, branchesNoteBranch, Bool.and_false]
  | nil => exact .of_quiet (.pure ())
  | cons b bs =>
    simp only [areBranchedBranches, Bool.and_eq_true] at hb
    rw [Bool.and_or_distrib_left]
    exact .quiet_bind (.statement (by decide)) fun _ =>
      (tells_branch env b fun hp => (hb hp).1).bind fun _ =>
        tells_branches env bs fun hp => (hb hp).2

end

theorem tells_tree (env : WriterSetting) (root : Block) (hb : P → isBranchedBlock root) :
    Tells P env.mixins (reachedBlock env.mixins root)
      (env.options.debug && blockNotesBranch env.mixins root) (emitTree env root) :=
  .quiet_bind (.onlyIf _ (.statement (by decide))) fun _ => tells_block env root hb

/-! ## Programs -/

/-- **Labels follow choices**: in the program of a tree whose choices hold nothing but branches, the
statement behind the start of every choice is a label or the end of the choice, exactly if the lines
of first branches are not noted. -/
theorem labels_follow_choices_iff (parse : Script.Parser) (evaluator : Evaluator)
    (mixins : MixinUse) (options : Options) (root : Block) (hroot : isBranchedBlock root = true) (ws : List Write) (s : WriterState)
    (hrun : emitTree { evaluator, mixins, options } root (startState options) = .ok ((), ws, s)) :
    generate parse evaluator mixins options root = .ok (assemble parse options ws s.helpers) ∧
      ((∀ pre subject post, ws = pre ++ .choice subject :: post →
          ∃ next more, (Output.ofWrites ws).lines =
              (Output.ofWrites pre).lines ++ choiceCode subject :: next :: more ∧
            IsLabelOrEnd next) ↔
        (options.debug && blockNotesBranch mixins root) = false) := by
  have htells := tells_tree (P := True) { evaluator, mixins, options } root fun _ => hroot
  have horderly := (htells _ _ _ _ hrun).2 trivial
  refine ⟨?_, ?_, ?_⟩
  · exact generate_of_ok hrun
  · intro hlabels
    cases hbad : options.debug && blockNotesBranch mixins root with
    | false => rfl
    | true =>
      -- the line behind the broken choice is a note, and would have to be a label
      obtain ⟨pre, subject, location, post, hws⟩ := horderly.broken hbad
      obtain ⟨next, more, hlines, hnext⟩ := hlabels pre subject _ hws
      rw [hws, Output.lines_cut rfl, Output.lines_cons rfl, List.append_cancel_left_eq] at hlines
      simp only [List.cons.injEq, true_and] at hlines
      exact absurd (hlines.1 ▸ hnext) (not_isLabelOrEnd_debugLine location)
  · intro hgood pre subject post hws
    exact lines_of_labelled (horderly.labelled hgood) hws

/-- Without notes the first branch of a choice follows its start. -/
theorem labels_follow_choice_x :
    let root : Block := ⟨[.case "x" ⟨[.when "1" none { line := 2 }], {}⟩ { line := 1 }], {}⟩
    let options : Options := { debug := false, indentation := some "  " }
    let ws : List Write :=
      [.statement "var pug_indent = [];", .choice "x", .branch "1", .statement "\x7d"]
    isBranchedBlock root = true ∧
      emitTree { evaluator := .foldNothing, options } root (startState options) =
        .ok ((), ws, startState options) ∧
      ∃ next more, (Output.ofWrites ws).lines =
          ["var pug_indent = [];"] ++ choiceCode "x" :: next :: more ∧ IsLabelOrEnd next := by
  intro root options ws
  have hroot : isBranchedBlock root = true := by decide
  have hrun : emitTree { evaluator := .foldNothing, options } root (startState options) =
      .ok ((), ws, startState options) := rfl
  have hlabels := (labels_follow_choices_iff (fun _ => none) .foldNothing {} options root hroot ws _ hrun).2.2 rfl
  exact ⟨hroot, hrun, hlabels [.statement "var pug_indent = [];"] "x" _ rfl⟩

/-- The line of a first branch is noted between the start of the choice and the branch. -/
theorem labels_follow_choice_x_fails :
    let branch : Node := .when "1" (some ⟨[.text "one" false { line := 3 }], {}⟩) { line := 2 }
    let root : Block := ⟨[.case "x" ⟨[branch], {}⟩ { line := 1 }], {}⟩
    let options : Options := { debug := true, locals := .bare }
    isBranchedBlock root = true ∧ ∃ ws s,
      emitTree { evaluator := .foldNothing, options } root (startState options) = .ok ((), ws, s) ∧
      (Output.ofWrites ws).lines =
        [";pug_debug_line = 1;", "switch (x)\x7b", ";pug_debug_line = 2;", "case 1:",
          ";pug_debug_line = 3;", "pug_html = pug_html + \"one\";", "  break;", "\x7d"] ∧
      ¬ IsLabelOrEnd ";pug_debug_line = 2;" := by
  intro branch root options
  let ws : List Write := [.statement (debugLine { line := 1 }), .choice "x",
    .statement (debugLine { line := 2 }), .branch "1", .statement (debugLine { line := 3 }),
    .text "one", .statement "  break;", .statement "\x7d"]
  have hlines : (Output.ofWrites ws).lines = _ := rfl
  exact ⟨by decide, ws, startState options, rfl, hlines, not_isLabelOrEnd_debugLine { line := 2 }⟩

/-- **A mixin is defined exactly if it is called.** The program of a tree shows all definitions and
calls that it comes to, except the definitions that are left out; a definition stays exactly if the
tree has a call of its name anywhere, or a call with a computed name. So no mixin that the program
calls by name is left out. -/
theorem mixin_defined_iff_called (parse : Script.Parser) (evaluator : Evaluator)
    (options : Options) (root : Block) (ws : List Write) (s : WriterState)
    (hrun : emitTree { evaluator, mixins := root.mixinUse, options } root (startState options) =
      .ok ((), ws, s)) :
    let use := root.mixinUse
    generate parse evaluator use options root = .ok (assemble parse options ws s.helpers) ∧
      Shown use (reachedBlock use root) ws ∧
      (∀ name parameters body location,
        isUnusedMixin use (.mixin name parameters body location) = false ↔
          ∃ above node, Occurs root above node ∧ node.mayCall name = true) ∧
      (∀ name arguments content attributes spreads place,
        .call name arguments content attributes spreads place ∈ reachedBlock use root →
          ∀ parameters body location,
            isUnusedMixin use (.mixin name parameters body location) = false) := by
  intro use
  have hkept (name : String) (parameters : Option String) (body : Block) (location : Location) :
      isUnusedMixin use (.mixin name parameters body location) = false ↔
        ∃ above node, Occurs root above node ∧ node.mayCall name = true := by
    rw [← keeps_mixinUse_iff]
    simp [isUnusedMixin, use]
  refine ⟨?_, ?_, hkept, ?_⟩
  · exact generate_of_ok hrun
  · have htells := tells_tree (P := False) { evaluator, mixins := use, options } root False.elim
    exact (htells _ _ _ _ hrun).1
  · intro name arguments content attributes spreads place hcall parameters body location
    rw [reachedBlock_eq] at hcall
    obtain ⟨top, htop, hreached⟩ := mem_flatMap.mp hcall
    obtain ⟨above, hoccurs⟩ :=
      occurs_iff_within.2 ⟨top, htop, within_of_mem_reachedNode top hreached⟩
    exact (hkept name parameters body location).2 ⟨above, _, hoccurs, by simp [Node.mayCall]⟩

/-- A mixin that is called in the definition of another one stays, and the other one is left out. -/
theorem mixin_defined_iff_called_nested :
    let root : Block :=
      ⟨[.mixin "a" none ⟨[.text "x" false {}], {}⟩ {},
        .mixin "b" none ⟨[.call "a" none none [] [] {}], {}⟩ {}], {}⟩
    let options : Options := { debug := false }
    let ws : List Write :=
      [.statement "pug_mixins[\"a\"] = pug_interp = function()\x7b", .statement
        "var block = (this && this.block), attributes = (this && this.attributes) || \x7b\x7d;",
        .text "x", .statement "\x7d;"]
    emitTree { evaluator := .foldNothing, mixins := root.mixinUse, options } root
        (startState options) = .ok ((), ws, {}) ∧
      Shown root.mixinUse (reachedBlock root.mixinUse root) ws ∧
      (∃ above node, Occurs root above node ∧ node.mayCall "a" = true) ∧
      ¬ ∃ above node, Occurs root above node ∧ node.mayCall "b" = true := by
  intro root options ws
  have hrun : emitTree { evaluator := .foldNothing, mixins := root.mixinUse, options } root
      (startState options) = .ok ((), ws, {}) := rfl
  obtain ⟨-, hshown, hkept, -⟩ :=
    mixin_defined_iff_called (fun _ => none) .foldNothing options root ws {} hrun
  have huse : root.mixinUse = { called := ["a"] } := rfl
  refine ⟨hrun, hshown, (hkept "a" none ⟨[], {}⟩ {}).1 ?_, fun hb => ?_⟩
  · rw [huse]
    decide
  · have hkeptb := (hkept "b" none ⟨[], {}⟩ {}).2 hb
    rw [huse] at hkeptb
    exact absurd hkeptb (by decide)

end Program
end PugTemplate
