import PugTemplate.Program.Assemble
import PugTemplate.Proofs.Node.Shape
import PugTemplate.Proofs.Program.Actions
/-!
# Relations between actions

Many facts about the writer say how its actions run in two settings. Such a relation goes through the
parts of a node, and then through whole trees, as soon as it holds of single actions and of one
action after another. A property of actions is such a relation too, which does not look at the
second one.
-/

namespace PugTemplate
namespace Program

open Emit WriterSetting

/-! ## Parts -/

/-- **A relation that holds of single actions** in two settings, where `E` tells which settings
belong together. States may differ in the helpers that have been noted, and in the number of loops. -/
structure RelatesParts (E : WriterSetting → WriterSetting → Prop)
    (R : ∀ ⦃α : Type⦄, Emit α → Emit α → Prop) : Prop where
  pure : ∀ {α : Type} (a : α), R (Pure.pure a) (Pure.pure a)
  bind : ∀ {α β : Type} {x y : Emit α} {f g : α → Emit β}, R x y → (∀ a, R (f a) (g a)) →
    R (x >>= f) (y >>= g)
  withState : ∀ {α : Type} {f g : WriterState → Emit α},
    (∀ s helpers loops, R (f s) (g { s with helpers, loops })) → R (state >>= f) (state >>= g)
  text : ∀ c, R (text c) (text c)
  value : ∀ source, R (write (.expression source)) (write (.expression source))
  doctypeWritten : R (change fun s => { s with doctypeWritten := true })
    (change fun s => { s with doctypeWritten := true })
  tagWritten : R (change fun s => { s with tagWritten := true })
    (change fun s => { s with tagWritten := true })
  evaluator : ∀ {env env'}, E env env' → env'.evaluator = env.evaluator
  helper : ∀ {env env'}, E env env' → ∀ {h : Helper}, h.isInternal = false →
    R (env.helper h) (env'.helper h)
  attributes : ∀ {env env'}, E env env' → ∀ form attributes,
    R (env.attributes form attributes) (env'.attributes form attributes)
  indent : ∀ {env env'}, E env env' → ∀ more newline c,
    R (onlyIf (env.isPretty && c) (env.indent more newline))
      (onlyIf (env'.isPretty && c) (env'.indent more newline))

variable {E : WriterSetting → WriterSetting → Prop} {R : ∀ ⦃α : Type⦄, Emit α → Emit α → Prop}
  {env env' : WriterSetting}

namespace RelatesParts

theorem ite (_h : RelatesParts E R) {α : Type} {c : Prop} [Decidable c] {x x' y y' : Emit α}
    (hx : R x y) (hx' : R x' y') : R (if c then x else x') (if c then y else y') := by
  split
  · exact hx
  · exact hx'

theorem onlyIf (h : RelatesParts E R) (c : Bool) {x y : Emit Unit} (hx : R x y) :
    R (Emit.onlyIf c x) (Emit.onlyIf c y) := h.ite hx (h.pure ())

variable (h : RelatesParts E R) (henv : E env env')

include h

theorem writeDoctype : R writeDoctype writeDoctype := by
  refine h.withState fun s helpers loops => ?_
  dsimp only
  split
  · exact h.bind (h.text _) fun _ => h.doctypeWritten
  · exact h.doctypeWritten

theorem emitFirstTag (head : TagHead) : R (emitFirstTag head) (emitFirstTag head) :=
  h.withState fun _ _ _ => h.onlyIf _ (h.bind (h.onlyIf _ h.writeDoctype) fun _ => h.tagWritten)

include henv

theorem newline (more : Nat) : R (env.newline more) (env'.newline more) := by
  have hi := h.indent henv more true true
  rwa [Bool.and_true, Bool.and_true] at hi

theorem expression (source : String) : R (env.expression source) (env'.expression source) := by
  unfold WriterSetting.expression
  rw [h.evaluator henv]
  split
  · exact h.text _
  · exact h.value _

theorem spreadAttributes (attributes : List Attribute) (spreads : List Spread) :
    R (env.spreadAttributes attributes spreads) (env'.spreadAttributes attributes spreads) := by
  refine h.ite (h.bind (h.pure _) fun items => ?_)
    (h.bind (h.attributes henv _ _) fun _ => h.bind (h.pure _) fun items => ?_)
  -- the same is done with the items, whether there are attributes among them or not
  all_goals
    dsimp only
    split
    · exact h.pure _
    · exact h.bind (h.helper henv rfl) fun _ => h.pure _

theorem tagAttributes (attributes : List Attribute) (spreads : List Spread) :
    R (env.tagAttributes attributes spreads) (env'.tagAttributes attributes spreads) := by
  refine h.ite ?_ (h.ite ?_ (h.pure _))
  · exact h.bind (h.spreadAttributes henv _ _) fun _ => h.bind (h.helper henv rfl) fun _ =>
      h.withState fun _ _ _ => h.expression henv _
  · exact h.bind (h.attributes henv _ _) fun _ => h.expression henv _

theorem emitName (label : TagLabel) : R (emitName env label) (emitName env' label) := by
  cases label with
  | name name => exact h.text _
  | expression source => exact h.expression henv source

theorem startTag (head : TagHead) : R (do
        Program.emitFirstTag head
        Emit.onlyIf (!head.isInline) (env.newline 0)
        Emit.text "<"
        Program.emitName env head.label
        env.tagAttributes head.attributes head.spreads)
      (do
        Program.emitFirstTag head
        Emit.onlyIf (!head.isInline) (env'.newline 0)
        Emit.text "<"
        Program.emitName env' head.label
        env'.tagAttributes head.attributes head.spreads) :=
  h.bind (h.emitFirstTag head) fun _ => h.bind (h.onlyIf _ (h.newline henv 0)) fun _ =>
    h.bind (h.text _) fun _ => h.bind (h.emitName henv _) fun _ => h.tagAttributes henv _ _

theorem emitEndTag (head : TagHead) (body : Block) :
    R (emitEndTag env head body) (emitEndTag env' head body) :=
  h.bind (h.onlyIf _ (h.newline henv 0)) fun _ => h.bind (h.text _) fun _ =>
    h.bind (h.emitName henv _) fun _ => h.text _

theorem emitValue (head : CodeHead) : R (emitValue env head) (emitValue env' head) := by
  unfold Program.emitValue
  rw [h.evaluator henv]
  dsimp only
  split
  · exact h.text _
  · exact h.ite (h.bind (h.helper henv rfl) fun _ => h.value _) (h.value _)

end RelatesParts

/-- **A relation that holds of document types and tags** too. -/
structure RelatesTags (E : WriterSetting → WriterSetting → Prop)
    (R : ∀ ⦃α : Type⦄, Emit α → Emit α → Prop) : Prop extends RelatesParts E R where
  choose : ∀ name, R (change (·.choose name)) (change (·.choose name))
  keepSpace : ∀ b, R (change fun s => { s with keepSpace := b })
    (change fun s => { s with keepSpace := b })

namespace RelatesTags

variable (h : RelatesTags E R)

include h

theorem doctype (name : String) : R (doctype name) (doctype name) := by
  refine h.withState fun s helpers loops => h.ite ?_ (h.ite ?_ h.writeDoctype)
  · exact h.bind (h.choose _) fun _ => h.writeDoctype
  · exact h.bind (h.choose _) fun _ => h.writeDoctype

theorem emitStartTag (henv : E env env') (head : TagHead) :
    R (emitStartTag env head) (emitStartTag env' head) :=
  h.bind (h.onlyIf _ (h.keepSpace true)) fun _ => h.startTag henv head

end RelatesTags

/-! ## Trees -/

/-- **A relation that holds of all actions for a node**, where `N` tells which nodes are right, and
with them their children, and `I` which names of loop variables belong together. -/
structure RelatesTrees (N : Node → Prop) (I : String → String → Prop)
    (E : WriterSetting → WriterSetting → Prop)
    (R : ∀ ⦃α : Type⦄, Emit α → Emit α → Prop) : Prop extends RelatesTags E R where
  write : ∀ w, R (write w) (write w)
  loop : ∀ key {f g : String → Emit Unit}, (∀ i j, I i j → R (f i) (g j)) →
    R (loopIndex key >>= f) (loopIndex key >>= g)
  itemLoop : ∀ {i j}, I i j → ∀ item, R (statement (itemLoop i item)) (statement (itemLoop j item))
  keyLoop : ∀ {i j}, I i j → ∀ item, R (statement (keyLoop i item)) (statement (keyLoop j item))
  emitStatements : ∀ codes, R (emitStatements codes) (emitStatements codes)
  emitClosed : ∀ head body, N (.tag head body) →
    R (emitClosed head body.nodes) (emitClosed head body.nodes)
  unsupported : ∀ node help, N node →
    R (fail (unsupported node help) : Emit Unit) (fail (unsupported node help))
  children : ∀ node, N node → ∀ child ∈ node.children, N child
  mixins : ∀ {env env'}, E env env' → env'.mixins = env.mixins
  emitDebugLine : ∀ {env env'}, E env env' → ∀ node,
    R (emitDebugLine env node) (emitDebugLine env' node)
  inFrame : ∀ {env env'}, E env env' → ∀ {x y}, R x y → R (inFrame env x) (inFrame env' y)
  inTag : ∀ {env env'}, E env env' →
    E { env with depth := env.depth + 1 } { env' with depth := env'.depth + 1 }
  inMixin : ∀ {env env'}, E env env' →
    E { env with mixinDepth := env.mixinDepth + 1 } { env' with mixinDepth := env'.mixinDepth + 1 }
  inCall : ∀ {env env'}, E env env' → E { env with depth := 0, mixinDepth := env.mixinDepth + 1 }
      { env' with depth := 0, mixinDepth := env'.mixinDepth + 1 }

namespace RelatesTrees

variable {N : Node → Prop} {I : String → String → Prop} (h : RelatesTrees N I E R)

include h

theorem statement (code : String) : R (Emit.statement code) (Emit.statement code) := h.write _

theorem emitMixinHead (name : String) (parameters : Option String) :
    R (emitMixinHead name parameters) (emitMixinHead name parameters) := by
  unfold Program.emitMixinHead
  obtain ⟨names, rest⟩ := splitParameters parameters
  refine h.bind (h.statement _) fun _ => h.bind (h.statement _) fun _ => ?_
  cases rest with
  | none => exact h.pure _
  | some rest =>
    exact h.bind (h.statement _) fun _ => h.bind (h.statement _) fun _ =>
      h.bind (h.statement _) fun _ => h.statement _

theorem emitCallEnd (henv : E env env') (arguments : String) (attributes : List Attribute)
    (spreads : List Spread) :
    R (emitCallEnd env arguments attributes spreads)
      (emitCallEnd env' arguments attributes spreads) := by
  refine h.ite ?_ (h.ite ?_ (h.statement _))
  · exact h.bind (h.spreadAttributes henv _ _) fun _ => h.bind (h.statement _) fun _ =>
      h.statement _
  · exact h.bind (h.attributes henv _ _) fun _ => h.bind (h.statement _) fun _ => h.statement _

end RelatesTrees

section Walk

variable {N : Node → Prop} {I : String → String → Prop}

-- The settings change on the way, so they are not fixed for the whole walk.
mutual

theorem RelatesTrees.node (h : RelatesTrees N I E R) {env env' : WriterSetting} (henv : E env env')
    (node : Node) (hn : N node) :
    R (emitNode env node) (emitNode env' node) := by
  have hc := h.children node hn
  cases node with rw [emitNode, emitNode]
  | block body | namedBlock _ _ body _ => exact h.block henv body hc
  | tag head body =>
    have hi := h.inTag henv
    have hk := h.onlyIf (keepsSpace head) (h.keepSpace false)
    refine h.bind (h.emitStartTag hi head) fun _ => h.withState fun s helpers loops => h.ite ?_ ?_
    · exact h.bind (h.emitClosed head body hn) fun _ => hk
    · exact h.bind (h.text _) fun _ => h.bind (h.block hi body hc) fun _ =>
        h.bind (h.emitEndTag hi head body) fun _ => hk
  | text text html location => exact h.text _
  | code head body =>
    have hb := fun before after => h.option henv before after body hc
    exact h.ite (h.bind (h.emitValue henv head) fun _ => hb _ _)
      (h.bind (h.statement _) fun _ => hb _ _)
  | comment text buffer location => exact h.onlyIf _ (h.bind (h.newline henv 1) fun _ => h.text _)
  | blockComment text body buffer location =>
    exact h.onlyIf _ (h.bind (h.newline henv 1) fun _ => h.bind (h.text _) fun _ =>
      h.bind (h.block henv body hc) fun _ => h.bind (h.newline henv 1) fun _ => h.text _)
  | doctype name location => exact h.doctype name
  | each item key list body otherwise location =>
    obtain ⟨hb, ho⟩ := List.forall_mem_append.mp hc
    have hbl := h.block henv body hb
    have hop := fun before after => h.option henv before after otherwise ho
    exact h.loop key fun _ _ hij => h.bind (h.statement _) fun _ =>
      h.bind (h.onlyIf _ (h.statement _)) fun _ => h.bind (h.itemLoop hij item) fun _ =>
      h.bind hbl fun _ => h.bind (h.statement _) fun _ => h.bind (hop _ _) fun _ =>
      h.bind (h.keyLoop hij item) fun _ => h.bind hbl fun _ => h.bind (h.statement _) fun _ =>
      h.bind (hop _ _) fun _ => h.statement _
  | «while» test body location =>
    exact h.bind (h.statement _) fun _ => h.bind (h.block henv body hc) fun _ =>
      h.statement _
  | conditional first others otherwise =>
    obtain ⟨hbr, ho⟩ := List.forall_mem_append.mp hc
    obtain ⟨hf, hot⟩ := List.forall_mem_append.mp hbr
    refine h.bind (h.branch henv first hf) fun _ => h.bind (h.branches henv others ?_)
      fun _ => h.option henv _ _ otherwise ho
    exact fun branch hbra child hm =>
      hot child (List.mem_flatMap.mpr ⟨branch, hbra, hm⟩)
  | case subject body location =>
    exact h.bind (h.write _) fun _ => h.bind (h.block henv body hc) fun _ => h.statement _
  | «when» value body location => exact h.bind (h.write _) fun _ => h.option henv _ _ body hc
  | mixin name parameters body location =>
    exact h.bind (h.emitMixinHead name parameters) fun _ =>
      h.bind (h.block (h.inMixin henv) body hc) fun _ => h.statement _
  | call name arguments body attributes spreads location =>
    refine h.inFrame henv (h.ite (h.statement _) (h.bind (h.statement _) fun _ => ?_))
    exact h.bind (h.option (h.inCall henv) _ _ body hc) fun _ => h.emitCallEnd henv _ _ _
  | mixinBlock location => exact h.inFrame henv (h.statement _)
  | yieldBlock location => exact h.pure _
  | filter | includeFilter | «include» | rawInclude | «extends» => exact h.unsupported _ _ hn

theorem RelatesTrees.block (h : RelatesTrees N I E R) {env env' : WriterSetting} (henv : E env env')
    (body : Block) (hb : ∀ node ∈ body.nodes, N node) :
    R (emitBlock env body) (emitBlock env' body) := by
  obtain ⟨nodes, location⟩ := body
  rw [emitBlock, emitBlock]
  refine h.withState fun s helpers loops => h.bind ?_ fun _ =>
    h.nodes henv (!s.keepSpace) none nodes hb
  dsimp only
  rw [Bool.and_assoc, Bool.and_assoc]
  exact h.indent henv 1 true _

theorem RelatesTrees.option (h : RelatesTrees N I E R) {env env' : WriterSetting} (henv : E env env')
    (before after : List String) (body : Option Block) (hb : ∀ node ∈ nodesOf body, N node) :
    R (emitOption env before after body) (emitOption env' before after body) := by
  cases body with
  | none =>
    rw [emitOption, emitOption]
    exact h.pure _
  | some body =>
    rw [emitOption, emitOption]
    exact h.bind (h.emitStatements before) fun _ => h.bind (h.block henv body hb) fun _ =>
      h.emitStatements after

theorem RelatesTrees.nodes (h : RelatesTrees N I E R) {env env' : WriterSetting} (henv : E env env')
    (indented : Bool) (before : Option Node) (nodes : List Node) (hn : ∀ node ∈ nodes, N node) :
    R (emitNodes env (env.isPretty && indented) before nodes)
      (emitNodes env' (env'.isPretty && indented) before nodes) := by
  cases nodes with
  | nil =>
    rw [emitNodes, emitNodes]
    exact h.pure _
  | cons node rest =>
    obtain ⟨hno, hn⟩ := List.forall_mem_cons.mp hn
    have hr := h.nodes henv indented (some node) rest hn
    rw [emitNodes, emitNodes, h.mixins henv]
    simp only [Bool.and_assoc]
    refine h.bind (h.indent henv 1 false _) fun _ => h.ite hr ?_
    exact h.bind (h.emitDebugLine henv node) fun _ => h.bind (h.node henv node hno) fun _ => hr

theorem RelatesTrees.branch (h : RelatesTrees N I E R) {env env' : WriterSetting} (henv : E env env')
    (branch : Branch) (hb : ∀ node ∈ branch.body.nodes, N node) :
    R (emitBranch env branch) (emitBranch env' branch) := by
  obtain ⟨test, body, location⟩ := branch
  rw [emitBranch, emitBranch]
  exact h.bind (h.statement _) fun _ => h.bind (h.block henv body hb) fun _ => h.statement _

theorem RelatesTrees.branches (h : RelatesTrees N I E R) {env env' : WriterSetting} (henv : E env env')
    (branches : List Branch) (hb : ∀ branch ∈ branches, ∀ node ∈ branch.body.nodes, N node) :
    R (emitBranches env branches) (emitBranches env' branches) := by
  cases branches with
  | nil =>
    rw [emitBranches, emitBranches]
    exact h.pure _
  | cons branch branches =>
    obtain ⟨hbr, hb⟩ := List.forall_mem_cons.mp hb
    rw [emitBranches, emitBranches]
    exact h.bind (h.statement _) fun _ => h.bind (h.branch henv branch hbr) fun _ =>
      h.branches henv branches hb

end

end Walk

end Program
end PugTemplate
