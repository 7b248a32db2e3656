import PugTemplate.Number.Decimal
import PugTemplate.Text.Quoted
/-!
# Constant values

The values a template's constant expressions can have. An object keeps its entries in the order in
which their keys first appeared, and each key once.
-/

namespace PugTemplate

/-- A constant. -/
inductive Value where
  | null
  | bool (b : Bool)
  | int (n : Int)
  | double (x : Double)
  | string (s : String)
  | array (items : List Value)
  | object (entries : List (String × Value))
  deriving Repr, Inhabited, BEq

namespace Value

/-! ## Objects and numbers -/

/-- Gives a key its value: a known key keeps its place, a new one goes last. -/
def setEntry (key : String) (v : Value) : List (String × Value) → List (String × Value)
  | [] => [(key, v)]
  | (k, old) :: rest => if k == key then (k, v) :: rest else (k, old) :: setEntry key v rest

/-- The object that entries build when they are given in this order. -/
def ofEntries (entries : List (String × Value)) : Value :=
  .object (entries.foldl (fun acc e => setEntry e.1 e.2 acc) [])

/-- Whole numbers below this bound in size are held as integers. -/
def integerBound : Nat := Nat.pow 2 53

/-- The value of a number: a whole one of moderate size is an integer. -/
def ofDouble (x : Double) : Value :=
  if x.isIntegral && x.truncate.natAbs < integerBound then .int x.truncate else .double x

/-! ## Conversions -/

def truthy : Value → Bool
  | .null => false
  | .bool b => b
  | .int n => n != 0
  | .double x => !x.isZero
  | .string s => !s.isEmpty
  | .array _ => true
  | .object _ => true

/-- The value as a number; strings, arrays and objects have none. -/
def toNumber? : Value → Option Double
  | .null => some (.zero false)
  | .bool b => Double.ofInt (if b then 1 else 0)
  | .int n => Double.ofInt n
  | .double x => some x
  | _ => none

/-- The least integer that is written as it is. -/
def leastExact : Int := -(Nat.pow 2 63 : Int)

/-- The greatest integer that is written as it is. -/
def greatestExact : Int := (Nat.pow 2 63 : Int) - 1

/-- An integer brought into the exact range. -/
def clamp (n : Int) : Int := max leastExact (min greatestExact n)

/-- The text of a double: whole numbers below `10 ^ 21` in size are brought into the exact range. -/
def doubleText (x : Double) : String :=
  if x.isIntegral && x.truncate.natAbs < Nat.pow 10 21 then toString (clamp x.truncate)
  else x.plain

/-- The text of an integer; one above the exact range is first rounded to a double. -/
def intText (n : Int) : String :=
  if n ≤ greatestExact then toString n
  else match Double.ofInt n with
    | some x => doubleText x
    | none => toString n

mutual
/-- The value as text: an array is its items' texts with commas between them, where null is empty.
-/
def toText : Value → String
  | .null => "null"
  | .bool b => if b then "true" else "false"
  | .int n => intText n
  | .double x => doubleText x
  | .string s => s
  | .array items => String.intercalate "," (itemTexts items)
  | .object _ => "[object Object]"

def itemTexts : List Value → List String
  | [] => []
  | .null :: rest => "" :: itemTexts rest
  | v :: rest => v.toText :: itemTexts rest
end

/-! ## Literals -/

mutual
/-- The value as a literal without spaces, strings being written by `escape`. -/
def write (escape : Char → List Char) : Value → String
  | .null => "null"
  | .bool b => if b then "true" else "false"
  | .int n => toString n
  | .double x => x.brief
  | .string s => Text.Quoted.quote escape s
  | .array items => "[" ++ String.intercalate "," (writeItems escape items) ++ "]"
  | .object entries => "\x7b" ++ String.intercalate "," (writeEntries escape entries) ++ "\x7d"

def writeItems (escape : Char → List Char) : List Value → List String
  | [] => []
  | v :: rest => v.write escape :: writeItems escape rest

def writeEntries (escape : Char → List Char) : List (String × Value) → List String
  | [] => []
  | (k, v) :: rest =>
    (Text.Quoted.quote escape k ++ ":" ++ v.write escape) :: writeEntries escape rest
end

/-- The value as it stands in a data file. -/
def json (v : Value) : String := v.write Text.Quoted.plainEscape

/-- The value as it stands in a script. -/
def script (v : Value) : String := v.write Text.Quoted.scriptEscape

end Value
end PugTemplate
