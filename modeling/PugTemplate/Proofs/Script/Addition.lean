import PugTemplate.Number.Decimal
/-!
# Addition in scripts

What `+` makes of two values of a script that are not objects: it joins texts as soon as one side is
a string, and adds numbers otherwise. The programs of this library build their results with it.
-/

namespace PugTemplate
namespace Script

inductive Numeral where
  | finite (x : Double)
  | infinite (negative : Bool)
  | nan
  deriving DecidableEq, Repr

namespace Numeral

def ofInt (n : Int) : Numeral :=
  match Double.ofInt n with
  | some x => .finite x
  | none => .infinite (n < 0)

/-- The sum. Finite numbers may have an infinite one, and opposite infinities have none. -/
def add : Numeral → Numeral → Numeral
  | .nan, _ => .nan
  | _, .nan => .nan
  | .infinite m, .infinite n => if m == n then .infinite m else .nan
  | .infinite n, .finite _ => .infinite n
  | .finite _, .infinite n => .infinite n
  | .finite x, .finite y =>
    match x.add y with
    | some z => .finite z
    | none => .infinite x.negative

/-- A decimal written out from `10 ^ -6` up to below `10 ^ 21`, and with an exponent elsewhere. Zero
has no sign. -/
def layout (d : Decimal) : String :=
  let digits := Nat.toDigits 10 d.digits
  let e := d.leading
  if d.digits == 0 then "0"
  else if -6 ≤ e && e < 21 then d.sign ++ Decimal.placePoint digits (e + 1)
  else
    let fraction := digits.drop 1
    let mantissa := String.ofList (digits.take 1) ++
      (if fraction.isEmpty then "" else "." ++ String.ofList fraction)
    d.sign ++ mantissa ++ "e" ++ (if e < 0 then "-" else "+") ++ toString e.natAbs

def text : Numeral → String
  | .finite x => layout (Decimal.shortest .even x)
  | .infinite negative => if negative then "-Infinity" else "Infinity"
  | .nan => "NaN"

end Numeral

/-- A value of a script that is no object. -/
inductive Primitive where
  | null
  | bool (b : Bool)
  | number (x : Numeral)
  | string (s : String)
  deriving DecidableEq, Repr

namespace Primitive

def isString : Primitive → Bool
  | .string _ => true
  | _ => false

def text : Primitive → String
  | .null => "null"
  | .bool b => if b then "true" else "false"
  | .number x => x.text
  | .string s => s

/-- The number that addition takes a value for; a string is taken for none. -/
def summand? : Primitive → Option Numeral
  | .null => some (.ofInt 0)
  | .bool b => some (.ofInt (if b then 1 else 0))
  | .number x => some x
  | .string _ => none

/-- The value of `a + b`. -/
def plus (a b : Primitive) : Primitive :=
  match a.summand?, b.summand? with
  | some x, some y => .number (x.add y)
  | _, _ => .string (a.text ++ b.text)

@[simp] theorem plus_string_left (s : String) (b : Primitive) :
    plus (.string s) b = .string (s ++ b.text) := rfl

@[simp] theorem plus_string_right (a : Primitive) (t : String) :
    plus a (.string t) = .string (a.text ++ t) := by
  cases a <;> rfl

theorem plus_of_isString {a b : Primitive} (h : (a.isString || b.isString) = true) :
    plus a b = .string (a.text ++ b.text) := by
  cases a with
  | string s => rfl
  | _ =>
    cases b with
    | string t => rfl
    | _ => exact absurd h (by simp [isString])

end Primitive
end Script
end PugTemplate
