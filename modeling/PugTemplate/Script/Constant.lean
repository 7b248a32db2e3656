import PugTemplate.Script.Escape
import PugTemplate.Script.Syntax
import PugTemplate.Value.Basic
/-!
# Constant expressions

The value of an expression that needs nothing but its own text: literals, arrays and objects of
constants, and the operators on them that are computed here. Everything else has no constant value.
-/

namespace PugTemplate
namespace Script

/-! ## Numbers -/

/-- The value of digits in a base; only values below `2 ^ 63` count. -/
def radixValue? (base : Nat) (digits : List Char) : Option Double := do
  let n ← digits.foldlM (fun n c => do
    let d ← Text.Quoted.hexValue? c
    if d < base then some (base * n + d) else none) 0
  if digits.isEmpty || Nat.pow 2 63 ≤ n then none else Double.ofInt n

/-- The value of a number literal. Big integers, and numbers that start with a zero and another
digit, have none. -/
def numberValue? (text : String) : Option Double :=
  match (text.toList.filter (· != '_')).map Char.toLower with
  | '0' :: 'x' :: digits => if text.endsWith "n" then none else radixValue? 16 digits
  | '0' :: 'o' :: digits => if text.endsWith "n" then none else radixValue? 8 digits
  | '0' :: 'b' :: digits => if text.endsWith "n" then none else radixValue? 2 digits
  | '0' :: d :: rest => if d.isDigit then none else Double.read? ('0' :: d :: rest)
  | cs => Double.read? cs

/-! ## Operators -/

def typeName : Value → String
  | .bool _ => "boolean"
  | .int _ => "number"
  | .double _ => "number"
  | .string _ => "string"
  | _ => "object"

/-- The value of an operator before its operand. -/
def unaryValue? (operator : String) (v : Value) : Option Value :=
  match operator with
  | "!" => some (.bool (!v.truthy))
  | "-" => v.toNumber?.map fun x => Value.ofDouble x.neg
  | "+" => v.toNumber?.map Value.ofDouble
  | "typeof" => some (.string (typeName v))
  | _ => none

/-- A value that turns addition into joining of texts. -/
def isTextual : Value → Bool
  | .string _ => true
  | .array _ => true
  | .object _ => true
  | _ => false

def arithmetic? (f : Double → Double → Option Double) (a b : Value) : Option Value := do
  let x ← a.toNumber?
  let y ← b.toNumber?
  let z ← f x y
  pure (Value.ofDouble z)

/-- The value of an operator between its operands. -/
def binaryValue? (operator : String) (a b : Value) : Option Value :=
  match operator with
  | "+" =>
    if isTextual a || isTextual b then some (.string (a.toText ++ b.toText))
    else arithmetic? Double.add a b
  | "-" => arithmetic? Double.sub a b
  | "*" => arithmetic? Double.mul a b
  | "/" => arithmetic? Double.div a b
  | "%" => arithmetic? Double.rem a b
  | _ => none

/-- The text between the quotes of a literal. -/
def unquote (literal : String) : String := String.ofList literal.toList.tail.dropLast

def literalText? (literal : String) : Option String := unescape (unquote literal)

/-- The name that a member of an object is stored under. -/
def memberKey? (key : Syntax) : Option String :=
  match key.kind with
  | "property_identifier" => some key.text
  | "string" => literalText? key.text
  | "number" => (numberValue? key.text).map fun x => (Value.ofDouble x).toText
  | _ => none

/-! ## Expressions -/

/-- An item follows a bracket or a comma; two commas in a row leave a hole, which is no constant. -/
inductive ItemPlace where
  | open
  | filled
  deriving DecidableEq, Repr

namespace Syntax

mutual
/-- The value of an expression that is constant. -/
def value? : Syntax → Option Value
  | .node info children =>
    match info.kind with
    | "parenthesized_expression" => firstValue? children
    | "string" => (literalText? info.text).map .string
    | "template_string" =>
      if (named children).any fun t => t.kind == "template_substitution" then none
      else (literalText? info.text).map .string
    | "number" => (numberValue? info.text).map Value.ofDouble
    | "true" => some (.bool true)
    | "false" => some (.bool false)
    | "null" => some .null
    | "array" => (itemValues? .open children).map .array
    | "object" => (memberValues? children).map Value.ofEntries
    | "unary_expression" => do
      let operator ← part? "operator" children
      unaryValue? operator.kind (← partValue? "argument" children)
    | "binary_expression" => do
      let operator ← part? "operator" children
      let a ← partValue? "left" children
      match operator.kind with
      | "&&" => if a.truthy then partValue? "right" children else some a
      | "||" => if a.truthy then some a else partValue? "right" children
      | "??" => if a matches .null then partValue? "right" children else some a
      | other => do
        let b ← partValue? "right" children
        binaryValue? other a b
    | "ternary_expression" => do
      let c ← partValue? "condition" children
      if c.truthy then partValue? "consequence" children else partValue? "alternative" children
    | _ => none

/-- The value of the first part that is neither a mark nor a comment. -/
def firstValue? : List Syntax → Option Value
  | [] => none
  | t :: ts => if t.info.isNamed && t.kind != "comment" then t.value? else firstValue? ts

/-- The value of the part with a name. -/
def partValue? (name : String) : List Syntax → Option Value
  | [] => none
  | t :: ts => if t.isField name then t.value? else partValue? name ts

/-- The values of an array's items, between its marks. -/
def itemValues? : ItemPlace → List Syntax → Option (List Value)
  | _, [] => some []
  | place, t :: ts =>
    match t.kind with
    | "[" => itemValues? place ts
    | "]" => itemValues? place ts
    | "comment" => itemValues? place ts
    | "," => if place == .open then none else itemValues? .open ts
    | _ => do
      let v ← t.value?
      let vs ← itemValues? .filled ts
      pure (v :: vs)

/-- The entries of an object's members, in order. -/
def memberValues? : List Syntax → Option (List (String × Value))
  | [] => some []
  | t :: ts =>
    if !(t.info.isNamed && t.kind != "comment") then memberValues? ts
    else if t.kind != "pair" then none
    else do
      let k ← memberKey? (← t.child? "key")
      let v ← t.pairValue?
      let vs ← memberValues? ts
      pure ((k, v) :: vs)

/-- The value of an object's member. -/
def pairValue? : Syntax → Option Value
  | .node _ children => partValue? "value" children
end

end Syntax
end Script
end PugTemplate
