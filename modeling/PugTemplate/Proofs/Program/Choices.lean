import PugTemplate.Program.Assemble
import PugTemplate.Proofs.Program.Parts
import PugTemplate.Proofs.Program.Statements
/-!
# What stands behind the start of a choice

Between the start of a choice and its first branch no statement may stand. The program of a tree
keeps to that unless it notes the line of the first branch: the note is a statement of its own, and
it is put in front of the branch.
-/

namespace PugTemplate

open List
namespace Program

open Emit WriterSetting

/-! ## Trees -/

def isBranchNode : Node → Bool
  | .when _ _ _ => true
  | _ => false

mutual

/-- Every choice in the node holds nothing but branches. -/
def isBranched : Node → Bool
  | .block body => isBranchedBlock body
  | .namedBlock _ _ body _ => isBranchedBlock body
  | .tag _ body => isBranchedBlock body
  | .code _ body => isBranchedOption body
  | .blockComment _ body _ _ => isBranchedBlock body
  | .each _ _ _ body otherwise _ => isBranchedBlock body && isBranchedOption otherwise
  | .while _ body _ => isBranchedBlock body
  | .conditional first others otherwise =>
    isBranchedBranch first && areBranchedBranches others && isBranchedOption otherwise
  | .case _ body _ => body.nodes.all isBranchNode && isBranchedBlock body
  | .when _ body _ => isBranchedOption body
  | .mixin _ _ body _ => isBranchedBlock body
  | .call _ _ body _ _ _ => isBranchedOption body
  | .filter _ body _ _ => isBranchedBlock body
  | .include _ body _ => isBranchedBlock body
  | _ => true

/-- Every choice in the block holds nothing but branches. -/
def isBranchedBlock : BlockOf Node → Bool
  | ⟨nodes, _⟩ => areBranched nodes

/-- Every choice in a block that may be missing holds nothing but branches. -/
def isBranchedOption : Option (BlockOf Node) → Bool
  | none => true
  | some body => isBranchedBlock body

/-- Every choice in the nodes holds nothing but branches. -/
def areBranched : List Node → Bool
  | [] => true
  | node :: rest => isBranched node && areBranched rest

/-- Every choice in the branch of a condition holds nothing but branches. -/
def isBranchedBranch : BranchOf Node → Bool
  | ⟨_, body, _⟩ => isBranchedBlock body

/-- Every choice in the branches of a condition holds nothing but branches. -/
def areBranchedBranches : List (BranchOf Node) → Bool
  | [] => true
  | b :: bs => isBranchedBranch b && areBranchedBranches bs

end

def startsAtLine : List Node → Bool
  | [] => false
  | node :: _ => 0 < node.location.line

mutual

/-- A choice is written whose first branch has a line. Definitions of mixins that are never called
are not written, and neither is the content of comments that are left out. -/
def notesBranch (use : MixinUse) : Node → Bool
  | .block body => blockNotesBranch use body
  | .namedBlock _ _ body _ => blockNotesBranch use body
  | .tag _ body => blockNotesBranch use body
  | .code _ body => optionNotesBranch use body
  | .blockComment _ body buffer _ => buffer && blockNotesBranch use body
  | .each _ _ _ body otherwise _ => blockNotesBranch use body || optionNotesBranch use otherwise
  | .while _ body _ => blockNotesBranch use body
  | .conditional first others otherwise =>
    branchNotesBranch use first || branchesNoteBranch use others || optionNotesBranch use otherwise
  | .case _ body _ => startsAtLine body.nodes || blockNotesBranch use body
  | .when _ body _ => optionNotesBranch use body
  | .mixin _ _ body _ => blockNotesBranch use body
  | .call _ _ body _ _ _ => optionNotesBranch use body
  | _ => false

/-- A choice is written in the block whose first branch has a line. -/
def blockNotesBranch (use : MixinUse) : BlockOf Node → Bool
  | ⟨nodes, _⟩ => nodesNoteBranch use nodes

/-- A choice is written in a block that may be missing, whose first branch has a line. -/
def optionNotesBranch (use : MixinUse) : Option (BlockOf Node) → Bool
  | none => false
  | some body => blockNotesBranch use body

/-- A choice is written in the nodes whose first branch has a line. -/
def nodesNoteBranch (use : MixinUse) : List Node → Bool
  | [] => false
  | node :: rest => (!isUnusedMixin use node && notesBranch use node) || nodesNoteBranch use rest

/-- A choice is written in the branch of a condition, whose first branch has a line. -/
def branchNotesBranch (use : MixinUse) : BranchOf Node → Bool
  | ⟨_, body, _⟩ => blockNotesBranch use body

/-- A choice is written in the branches of a condition, whose first branch has a line. -/
def branchesNoteBranch (use : MixinUse) : List (BranchOf Node) → Bool
  | [] => false
  | b :: bs => branchNotesBranch use b || branchesNoteBranch use bs

end

/-! ## Writes -/

/-- A statement that may stand behind the start of a choice: the label of a branch, or the end. -/
def IsLabelOrEnd (line : String) : Prop := line = "\x7d" ∨ ∃ value, line = branchCode value

/-- A list of writes that starts with a statement that may stand behind the start of a choice. -/
def StartsWithLabel (ws : List Write) : Prop :=
  ∃ w rest line, ws = w :: rest ∧ w.line? = some line ∧ IsLabelOrEnd line

/-- Every choice is followed by a label or its end. -/
def Labelled (ws : List Write) : Prop :=
  ∀ pre subject post, ws = pre ++ .choice subject :: post → StartsWithLabel post

/-- Some choice is followed by the note of a line. -/
def Broken (ws : List Write) : Prop :=
  ∃ pre subject location post,
    ws = pre ++ .choice subject :: .statement (debugLine location) :: post

/-- The writes are broken in the one case, and labelled in the other. -/
structure Orderly (bad : Bool) (ws : List Write) : Prop where
  labelled : bad = false → Labelled ws
  broken : bad = true → Broken ws

theorem not_isLabelOrEnd_debugLine (location : Location) : ¬ IsLabelOrEnd (debugLine location) := by
  have hn : (debugLine location).toList.head? = some ';' := by
    unfold debugLine
    rw [String.toList_append, String.toList_append, String.toList_append]
    rfl
  rintro (h | ⟨value, h⟩)
  · rw [h] at hn
    exact absurd hn (by decide)
  · rw [h, branchCode] at hn
    split at hn
    · exact absurd hn (by decide)
    · have hf : ("case ").toList.head? = some 'c' := by decide
      rw [String.toList_append, String.toList_append, append_assoc, head?_append,
        hf, Option.some_or] at hn
      exact absurd hn (by decide)

variable {ws pre post : List Write} {nodes : List Node} {subject : String}

theorem StartsWithLabel.append (h : StartsWithLabel ws) (more : List Write) :
    StartsWithLabel (ws ++ more) := by
  obtain ⟨w, rest, line, rfl, hli, hl⟩ := h
  exact ⟨w, rest ++ more, line, rfl, hli, hl⟩

theorem Labelled.append {first second : List Write} (hf : Labelled first)
    (hs : Labelled second) : Labelled (first ++ second) := by
  intro pre subject post h
  rcases append_eq_append_iff.mp h with ⟨more, rfl, hm⟩ | ⟨rest, hr, hp⟩
  · exact hs more subject post hm
  · cases rest with
    | nil => exact hs [] subject post hp.symm
    | cons w rest =>
      -- the choice stands in the first part, and so does what follows it
      obtain ⟨rfl, rfl⟩ := hp
      exact (hf pre subject rest hr).append second

theorem Broken.append_left (h : Broken ws) (front : List Write) : Broken (front ++ ws) := by
  obtain ⟨pre, subject, location, post, rfl⟩ := h
  exact ⟨front ++ pre, subject, location, post, by simp⟩

theorem Broken.append_right (h : Broken ws) (more : List Write) : Broken (ws ++ more) := by
  obtain ⟨pre, subject, location, post, rfl⟩ := h
  exact ⟨pre, subject, location, post ++ more, by simp⟩

namespace Orderly

variable {first second : List Write} {a b : Bool}

theorem append (hf : Orderly a first) (hs : Orderly b second) :
    Orderly (a || b) (first ++ second) := by
  constructor
  · intro h
    rw [Bool.or_eq_false_iff] at h
    exact (hf.labelled h.1).append (hs.labelled h.2)
  · intro h
    rcases Bool.or_eq_true_iff.mp h with h | h
    · exact (hf.broken h).append_right second
    · exact (hs.broken h).append_left first

theorem of_plain {ws : List Write} (h : ∀ w ∈ ws, w.startsChoice = false) : Orderly false ws := by
  refine ⟨fun _ => ?_, fun h => absurd h (by simp)⟩
  rintro pre subject post rfl
  exact absurd (h (.choice subject) (by simp)) (by simp [Write.startsChoice])

/-- **A choice**: what stands behind its start is its first branch, with the note of a line in front
of it or not, or its end if there are no branches. -/
theorem choice {inner : List Write} {bad noted : Bool} (hi : Orderly bad inner)
    (hs : (inner = [] ∧ noted = false) ∨ ∃ value location rest,
      inner = (if noted then [.statement (debugLine location)] else []) ++ .branch value :: rest)
    (subject : String) :
    Orderly (noted || bad) (.choice subject :: (inner ++ [.statement "\x7d"])) := by
  have hen : Orderly false [.statement "\x7d"] := of_plain (by simp [Write.startsChoice])
  constructor
  · intro h
    rw [Bool.or_eq_false_iff] at h
    obtain ⟨hn, hb⟩ := h
    have hl : StartsWithLabel (inner ++ [.statement "\x7d"]) := by
      rcases hs with ⟨rfl, -⟩ | ⟨value, location, rest, rfl⟩
      · exact ⟨_, _, _, rfl, rfl, .inl rfl⟩
      · rw [hn]
        exact ⟨_, _, _, rfl, rfl, .inr ⟨value, rfl⟩⟩
    have hr := (hi.labelled hb).append (hen.labelled rfl)
    intro pre subject' post h
    cases pre with
    | nil =>
      simp only [nil_append, cons.injEq] at h
      exact h.2 ▸ hl
    | cons w pre =>
      simp only [cons_append, cons.injEq] at h
      exact hr pre subject' post h.2
  · intro h
    rcases Bool.or_eq_true_iff.mp h with hn | hb
    · rcases hs with ⟨-, hno⟩ | ⟨value, location, rest, rfl⟩
      · exact absurd hn (by simp [hno])
      · exact ⟨[], subject, location, .branch value :: rest ++ [.statement "\x7d"], by simp [hn]⟩
    · exact ((hi.broken hb).append_right _).append_left [.choice subject]

end Orderly

/-! ## Branches -/

/-- **Branches**: the first write is the label of the first one, behind the note of its line if that
is taken. -/
theorem emits_branches (env : WriterSetting) (indented : Bool) (before : Option Node)
    (hnod : nodes.all isBranchNode) :
    Emits (emitNodes env indented before nodes) fun ws =>
      (ws = [] ∧ (env.options.debug && startsAtLine nodes) = false) ∨ ∃ value location rest,
        ws = (if env.options.debug && startsAtLine nodes then [.statement (debugLine location)]
          else []) ++ .branch value :: rest := by
  cases nodes with
  | nil =>
    intro s a ws t h
    simp only [emitNodes, pure_run, Except.ok.injEq, Prod.mk.injEq] at h
    exact .inl ⟨h.2.1.symm, by simp [startsAtLine]⟩
  | cons node rest =>
    cases node with
    | «when» value body location =>
      intro s a ws t h
      simp only [emitNodes, isText, isUnusedMixin, Bool.and_false, Bool.false_and, onlyIf_false,
        Emit.pure_bind, Bool.false_eq_true, if_false, emitNode] at h
      -- a branch is no text and no definition, so nothing but a note can stand before its label
      obtain ⟨_, note, t₁, ws₁, hn, hb, rfl⟩ := bind_eq_ok.mp h
      obtain ⟨_, first, t₂, ws₂, hf, -, rfl⟩ := bind_eq_ok.mp hb
      obtain ⟨_, label, t₃, ws₃, hl, -, rfl⟩ := bind_eq_ok.mp hf
      obtain ⟨-, rfl, -⟩ := hl
      have hc : (env.options.debug && hasDebugLine (.when value body location)) =
          (env.options.debug && startsAtLine (.when value body location :: rest)) := rfl
      unfold emitDebugLine at hn
      rw [hc] at hn
      split
      · next hno =>
        simp only [hno, onlyIf_true, statement, write_run, Except.ok.injEq, Prod.mk.injEq] at hn
        rw [← hn.2.1]
        simp [Node.location]
      · next hno =>
        simp only [hno, onlyIf_false, pure_run, Except.ok.injEq, Prod.mk.injEq] at hn
        rw [← hn.2.1]
        simp
    | _ => exact absurd hnod (by simp [isBranchNode])

/-- Branches do not start with texts, so nothing is added in front of them. -/
theorem emitBlock_branches (env : WriterSetting) (body : Block)
    (hb : body.nodes.all isBranchNode) (s : WriterState) :
    emitBlock env body s = emitNodes env (env.isPretty && !s.keepSpace) none body.nodes s := by
  obtain ⟨nodes, location⟩ := body
  have ht : startsWithTexts nodes = false := by
    match nodes with
    | [] => rfl
    | [_] => rfl
    | node :: _ :: _ =>
      simp only [all_cons, Bool.and_eq_true] at hb
      cases node with
      | «when» value body location => rfl
      | _ => exact absurd hb.1 (by simp [isBranchNode])
  rw [emitBlock, state_bind, ht, Bool.and_false, onlyIf_false, Emit.pure_bind]

/-! ## Lines -/

theorem lines_of_labelled (h : Labelled ws) (hw : ws = pre ++ .choice subject :: post) :
    ∃ next more, (Output.ofWrites ws).lines =
        (Output.ofWrites pre).lines ++ choiceCode subject :: next :: more ∧ IsLabelOrEnd next := by
  obtain ⟨w, rest, line, rfl, hli, hl⟩ := h pre subject post hw
  refine ⟨line, (Output.ofWrites rest).lines, ?_, hl⟩
  rw [hw, Output.lines_cut rfl, Output.lines_cons hli]

end Program
end PugTemplate
