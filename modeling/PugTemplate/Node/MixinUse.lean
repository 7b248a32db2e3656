import PugTemplate.Node.Walk
/-!
# The mixins that a tree calls
-/

namespace PugTemplate

/-- The mixins that are called. -/
structure MixinUse where
  /-- The names in calls, in the order of their first one. -/
  called : List String := []
  /-- There is a call that computes its name. -/
  dynamic : Bool := false
  deriving DecidableEq, Repr, Inhabited

namespace MixinUse

/-- The definition of a mixin is needed. -/
def keeps (use : MixinUse) (name : String) : Bool := use.dynamic || use.called.contains name

def add (use : MixinUse) (name : String) : MixinUse :=
  if use.called.contains name then use else { use with called := use.called ++ [name] }

/-- The name of a call is computed. -/
def isDynamic (name : String) : Bool := name.startsWith "#\x7b"

def visitor : Visitor MixinUse :=
  { enter := fun node use =>
      match node with
      | .call name _ _ _ _ _ =>
        (true, if isDynamic name then { use with dynamic := true } else use.add name)
      | _ => (true, use) }

end MixinUse

def Block.mixinUse (b : Block) : MixinUse := (b.walk MixinUse.visitor {}).2

end PugTemplate
