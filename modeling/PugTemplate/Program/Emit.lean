import PugTemplate.Node.MixinUse
import PugTemplate.Program.Attributes
import PugTemplate.Program.Options
import PugTemplate.Program.Output
/-!
# Writing programs

The writer of a program goes through a tree from top to bottom. What it has seen so far, such as the
document type, decides how later nodes are written.
-/

namespace PugTemplate
namespace Program

/-- What the writer has seen so far. -/
structure WriterState where
  doctype : Option String := none
  /-- Attributes that are just true have a short form. -/
  terse : Bool := false
  /-- Every element has an end. -/
  xml : Bool := false
  doctypeWritten : Bool := false
  tagWritten : Bool := false
  /-- The markup is not indented, since white space counts at this place. -/
  keepSpace : Bool := false
  loops : Nat := 0
  /-- The helpers that copies are needed of. -/
  helpers : List Helper := []
  deriving DecidableEq, Repr, Inhabited

/-- The state after a document type has been chosen. -/
def WriterState.choose (s : WriterState) (name : String) : WriterState :=
  let doctype := Markup.doctype name
  { s with doctype := some doctype, terse := Markup.lower doctype == "<!doctype html>"
           xml := doctype.startsWith "<?xml" }

/-! ## Actions -/

/-- An action of the writer: it fails, or gives a result, the writes that it emits, and the state
after it. -/
def Emit (α : Type) : Type := WriterState → Except Diagnostic (α × List Write × WriterState)

namespace Emit

protected def pure {α : Type} (a : α) : Emit α := fun s => .ok (a, [], s)

protected def bind {α β : Type} (x : Emit α) (f : α → Emit β) : Emit β := fun s =>
  match x s with
  | .error d => .error d
  | .ok (a, first, s) =>
    match f a s with
    | .error d => .error d
    | .ok (b, second, s) => .ok (b, first ++ second, s)

instance : Monad Emit where
  pure := Emit.pure
  bind := Emit.bind

def write (w : Write) : Emit Unit := fun s => .ok ((), [w], s)

def text (text : String) : Emit Unit := write (.text text)

def statement (code : String) : Emit Unit := write (.statement code)

def state : Emit WriterState := fun s => .ok (s, [], s)

def change (f : WriterState → WriterState) : Emit Unit := fun s => .ok ((), [], f s)

def fail {α : Type} (d : Diagnostic) : Emit α := fun _ => .error d

def onlyIf (condition : Bool) (action : Emit Unit) : Emit Unit :=
  if condition then action else Emit.pure ()

end Emit

/-! ## Settings -/

/-- What stays the same at a place in the tree. -/
structure WriterSetting where
  evaluator : Evaluator := .foldNothing
  mixins : MixinUse := {}
  options : Options := {}
  /-- The tags around this place. -/
  depth : Nat := 0
  /-- The mixins around this place, whose callers add their indentation. -/
  mixinDepth : Nat := 0

namespace WriterSetting

def isPretty (env : WriterSetting) : Bool := env.options.indentation.isSome

def copies (n : Nat) (text : String) : String := String.join (List.replicate n text)

def indentationText (env : WriterSetting) (levels : Nat) : String :=
  copies levels (env.options.indentation.getD "")

/-- Emits the value of an expression; a constant is a text. -/
def expression (env : WriterSetting) (source : String) : Emit Unit :=
  match env.evaluator source with
  | some value => Emit.text value.toText
  | none => Emit.write (.expression source)

/-- Notes helpers, of which copies are needed if the program has copies. -/
def useHelpers (env : WriterSetting) (helpers : List Helper) : Emit Unit :=
  Emit.onlyIf env.options.inlineHelpers
    (Emit.change fun s => { s with helpers := s.helpers ++ helpers })

def reach (env : WriterSetting) (h : Helper) : String :=
  env.options.helperPrefix ++ h.name

/-- The code that reaches a helper, which is noted. -/
def helper (env : WriterSetting) (h : Helper) : Emit String := do
  env.useHelpers [h]
  pure (env.reach h)

/-- Emits the indentation of this place, with a number of levels more, at the start of a line or
not. Inside of a mixin, the indentation of the caller is added. -/
def indent (env : WriterSetting) (more : Nat) (newline : Bool) : Emit Unit := do
  Emit.text ((if newline then "\n" else "") ++ env.indentationText (env.depth + more - 1))
  Emit.onlyIf (0 < env.mixinDepth) (Emit.statement "pug_html = pug_html + pug_indent.join(\"\");")

/-- Emits the indentation of a new line, if markup is indented. -/
def newline (env : WriterSetting) (more : Nat) : Emit Unit :=
  Emit.onlyIf env.isPretty (env.indent more true)

/-! ## Attributes -/

def attributes (env : WriterSetting) (form : AttributeForm) (attributes : List Attribute) :
    Emit String := do
  let s ← Emit.state
  let coding : AttributeSetting :=
    { evaluator := env.evaluator, terse := s.terse, form, reach := env.reach }
  let coded := coding.code attributes
  env.useHelpers coded.helpers
  pure coded.code

/-- The code of an object with the attributes and all that is spread, from left to right. -/
def spreadAttributes (env : WriterSetting) (attributes : List Attribute) (spreads : List Spread) :
    Emit String := do
  let first ← if attributes.isEmpty then pure [] else do pure [← env.attributes .object attributes]
  match first ++ spreads.map (·.source) with
  | [single] => pure single
  | items =>
    let merge ← env.helper .merge
    pure (merge ++ "([" ++ String.intercalate "," items ++ "])")

def tagAttributes (env : WriterSetting) (attributes : List Attribute) (spreads : List Spread) :
    Emit Unit := do
  if !spreads.isEmpty then
    let object ← env.spreadAttributes attributes spreads
    let all ← env.helper .attrs
    let s ← Emit.state
    env.expression (all ++ "(" ++ object ++ ", " ++ boolCode s.terse ++ ")")
  else if !attributes.isEmpty then
    env.expression (← env.attributes .html attributes)

/-! ## Document types -/

def writeDoctype : Emit Unit := do
  match (← Emit.state).doctype with
  | some doctype => Emit.text doctype
  | none => pure ()
  Emit.change fun s => { s with doctypeWritten := true }

/-- Emits a document type. Without a name, it is the one that has been chosen before. -/
def doctype (name : String) : Emit Unit := do
  let s ← Emit.state
  if !name.isEmpty then Emit.change (·.choose name)
  else if s.doctype.isNone then Emit.change (·.choose "html")
  writeDoctype

end WriterSetting
end Program
end PugTemplate
