import PugTemplate.Node.Basic
import PugTemplate.Token.Lexer.Basic
import PugTemplate.Token.Stream
/-!
# Extensions

Hooks for the lexer are offered every rule. Hooks for trees are asked only about tokens that no
production of the grammar takes, and each pair of a context and a token kind belongs to one hook at
most.
-/

namespace PugTemplate

/-- Why a reader stops without a result. -/
inductive Halt where
  /-- The tokens are refused. -/
  | refused (d : Diagnostic)
  /-- All steps have been taken. Only a hook that leaves its token can come to this. -/
  | exhausted
  deriving DecidableEq, Repr, Inhabited

abbrev TokenReader := StateT TokenStream (Except Halt)

/-- Where in the grammar a hook applies. -/
inductive HookContext where
  | expression
  | text
  | textBlock
  | case
  | blockCode
  | tagAttribute
  | tag
  deriving DecidableEq, Repr, Inhabited

namespace HookContext

def name : HookContext → String
  | .expression => "expression"
  | .text => "text"
  | .textBlock => "text-block"
  | .case => "case"
  | .blockCode => "block-code"
  | .tagAttribute => "tag-attribute"
  | .tag => "tag"

def all : List HookContext :=
  [.expression, .text, .textBlock, .case, .blockCode, .tagAttribute, .tag]

def ofName? (name : String) : Option HookContext := all.find? fun c => c.name == name

/-- A context in which nodes may be added to a block. -/
def takesNodes : HookContext → Bool
  | .text => true
  | .textBlock => true
  | .case => true
  | _ => false

/-- A context in which a tag is being read. -/
def takesTags : HookContext → Bool
  | .tagAttribute => true
  | .tag => true
  | _ => false

end HookContext

/-- A tag or a call that is being read. -/
structure TagDraft where
  attributes : List Attribute := []
  spreads : List Spread := []
  body : Block
  selfClosing : Bool := false
  textOnly : Bool := false
  location : Location
  deriving Inhabited

/-- What a hook may use: the file, and a reader for expressions. -/
structure HookScope where
  file : Option String
  expression : TokenReader Node

/-- Makes a node from the tokens at the front. -/
abbrev ExpressionHook := HookScope → TokenReader Node

/-- Makes nodes for a block, or declines. -/
abbrev NodesHook := HookScope → TokenReader (Option (List Node))

/-- Turns a token inside of code into a part of the code, or declines. -/
abbrev BlockCodeHook := HookScope → Token → TokenReader (Option String)

/-- Changes a tag that is being read, or declines. -/
abbrev TagHook := HookScope → TagDraft → TokenReader (Option TagDraft)

abbrev HookKey := HookContext × String

structure Plugins where
  lexer : List LexerHook := []
  expressions : List (String × ExpressionHook) := []
  nodes : List (HookKey × NodesHook) := []
  blockCode : List (String × BlockCodeHook) := []
  tags : List (HookKey × TagHook) := []
  /-- The pairs that belong to a hook. -/
  claimed : List HookKey := []
  deriving Inhabited

namespace Plugins

def isEmpty (p : Plugins) : Bool := p.lexer.isEmpty && p.claimed.isEmpty

/-- Adding hooks. It may fail, and leaves a set of hooks behind in either case. -/
abbrev Registering := ExceptT Diagnostic (StateM Plugins)

/-- What comes of adding hooks to a set, and the set after it. -/
def Registering.run {α : Type} (x : Registering α) (p : Plugins) : Except Diagnostic α × Plugins :=
  (ExceptT.run x).run p

/-- Reserves a pair for one hook. -/
def claim (key : HookKey) : Registering Unit := do
  if (← get).claimed.contains key then
    throw (.unlocated (.claimedTwice key.1.name key.2) none)
  modify fun p => { p with claimed := p.claimed ++ [key] }

/-- A hook, with the tokens that it is for. -/
inductive Registration where
  | lexer (hook : LexerHook)
  | expression (kind : String) (hook : ExpressionHook)
  | nodes (context : HookContext) (kind : String) (hook : NodesHook)
  | blockCode (kind : String) (hook : BlockCodeHook)
  | tag (context : HookContext) (kind : String) (hook : TagHook)

/-- Adds a hook. A hook for the lexer claims nothing, and some hooks are for certain contexts only. -/
def Registration.perform : Registration → Registering Unit
  | .lexer hook => modify fun p => { p with lexer := p.lexer ++ [hook] }
  | .expression kind hook => do
    claim (.expression, kind)
    modify fun p => { p with expressions := p.expressions ++ [(kind, hook)] }
  | .nodes context kind hook =>
    if context.takesNodes then do
      claim (context, kind)
      modify fun p => { p with nodes := p.nodes ++ [((context, kind), hook)] }
    else throw (.unlocated (.noNodeHooks context.name) none)
  | .blockCode kind hook => do
    claim (.blockCode, kind)
    modify fun p => { p with blockCode := p.blockCode ++ [(kind, hook)] }
  | .tag context kind hook =>
    if context.takesTags then do
      claim (context, kind)
      modify fun p => { p with tags := p.tags ++ [((context, kind), hook)] }
    else throw (.unlocated (.noTagHooks context.name) none)

/-- The set of hooks with one more, unless that fails. -/
def add (p : Plugins) (r : Registration) : Except Diagnostic Plugins :=
  match Registering.run r.perform p with
  | (.ok _, q) => .ok q
  | (.error d, _) => .error d

def addLexer (p : Plugins) (hook : LexerHook) : Plugins :=
  (Registering.run (Registration.lexer hook).perform p).2

def addExpression (p : Plugins) (kind : String) (hook : ExpressionHook) :
    Except Diagnostic Plugins :=
  p.add (.expression kind hook)

def addNodes (p : Plugins) (context : HookContext) (kind : String) (hook : NodesHook) :
    Except Diagnostic Plugins :=
  p.add (.nodes context kind hook)

def addBlockCode (p : Plugins) (kind : String) (hook : BlockCodeHook) :
    Except Diagnostic Plugins :=
  p.add (.blockCode kind hook)

def addTag (p : Plugins) (context : HookContext) (kind : String) (hook : TagHook) :
    Except Diagnostic Plugins :=
  p.add (.tag context kind hook)

/-- The hook for expressions that start with a kind of token. -/
def expression? (p : Plugins) (kind : String) : Option ExpressionHook := p.expressions.lookup kind

def nodes? (p : Plugins) (context : HookContext) (kind : String) : Option NodesHook :=
  p.nodes.lookup (context, kind)

def blockCode? (p : Plugins) (kind : String) : Option BlockCodeHook := p.blockCode.lookup kind

def tag? (p : Plugins) (context : HookContext) (kind : String) : Option TagHook :=
  p.tags.lookup (context, kind)

end Plugins
end PugTemplate
