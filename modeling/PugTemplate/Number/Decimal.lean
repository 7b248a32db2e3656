import PugTemplate.Number.Double
/-!
# Decimal texts of doubles

A double is written with the fewest decimal digits that read back as the same double, and of those
the ones nearest to it. Two texts are in use. `Decimal.brief` turns to an exponent for very large
and very small numbers, marks whole ones with `.0`, and takes the even one of two equally near digit
strings. `Decimal.plain` always writes the number out, and takes the larger one.
-/

namespace PugTemplate

/-- A decimal number, `± digits * 10 ^ exponent`. -/
structure Decimal where
  negative : Bool
  digits : Nat
  exponent : Int
  deriving DecidableEq, Repr, Inhabited

namespace Decimal

/-! ## Fewest digits -/

/-- The two factors that bring `x * 10 ^ q` and `y * 2 ^ f` to one unit: `x` takes the first and `y`
the second. -/
def commonUnit (q f : Int) : Nat × Nat :=
  (Nat.pow 10 q.toNat * Nat.pow 2 (-f).toNat, Nat.pow 2 f.toNat * Nat.pow 10 (-q).toNat)

/-- The least `k` with `y * 2 ^ f < 10 ^ k`, for a positive `y`. -/
def magnitude (y : Nat) (f : Int) : Int :=
  let guess := ((y.log2 : Int) + f) * 30103 / 100000
  let below (k : Int) : Bool :=
    let (a, b) := commonUnit k f
    y * b < a
  if below guess then guess
  else if below (guess + 1) then guess + 1
  else guess + 2

/-- Drops the zeros at the end of a digit string, and counts them into the exponent. -/
def dropZeros : Nat → Nat → Int → Nat × Int
  | 0, digits, e => (digits, e)
  | fuel + 1, digits, e =>
    if digits != 0 && digits % 10 == 0 then dropZeros fuel (digits / 10) (e + 1) else (digits, e)

/-- Which of two equally near digit strings is taken. -/
inductive Tie where
  | even
  | up
  deriving DecidableEq, Repr

/-- Looks for a decimal of at most `count` more digits than `n` inside the interval of reals that
round to the double with quadrupled mantissa `value`; `low` and `high` are the ends of the interval,
which belong to it when `closed`. -/
def search (tie : Tie) (low value high : Nat) (f : Int) (closed : Bool) (top : Int) :
    Nat → Nat → Nat × Int
  | 0, _ => (0, 0)
  | count + 1, n =>
    let q := top - n
    let (a, b) := commonUnit q f
    let below := value * b / a
    let above := below + 1
    let belowFits := if closed then low * b ≤ below * a else low * b < below * a
    let aboveFits := if closed then above * a ≤ high * b else above * a < high * b
    let toBelow := value * b - below * a
    let toAbove := above * a - value * b
    let nearer := toBelow < toAbove || (toBelow == toAbove && tie == .even && below % 2 == 0)
    if belowFits && (nearer || !aboveFits) then (below, q)
    else if aboveFits then (above, q)
    else search tie low value high f closed top count (n + 1)

/-- The fewest digits that read back as the double, and of those the nearest to it. -/
def shortest (tie : Tie) (x : Double) : Decimal :=
  if x.mantissa == 0 then ⟨x.negative, 0, 0⟩
  else
    let value := 4 * x.mantissa
    let f := x.exponent - 2
    let step := if x.mantissa == Nat.pow 2 52 && Double.minExponent < x.exponent then 1 else 2
    let closed := x.mantissa % 2 == 0
    let (digits, e) :=
      search tie (value - step) value (value + 2) f closed (magnitude value f) 17 1
    let (digits, e) := dropZeros 20 digits e
    ⟨x.negative, digits, e⟩

/-! ## Layouts -/

/-- A minus sign when the number is negative. -/
def sign (d : Decimal) : String := if d.negative then "-" else ""

/-- Digits with a point after the first `point` of them, filled with zeros where there are none. -/
def placePoint (digits : List Char) (point : Int) : String :=
  if point ≤ 0 then
    "0." ++ String.ofList (List.replicate (-point).toNat '0' ++ digits)
  else if (digits.length : Int) ≤ point then
    String.ofList (digits ++ List.replicate (point.toNat - digits.length) '0')
  else
    String.ofList (digits.take point.toNat) ++ "." ++ String.ofList (digits.drop point.toNat)

/-- The power of ten of the first digit. -/
def leading (d : Decimal) : Int := d.exponent + (Nat.toDigits 10 d.digits).length - 1

/-- The number written out: no exponent, and no point when it is whole. -/
def layoutPlain (d : Decimal) : String :=
  if d.digits == 0 then d.sign ++ "0"
  else d.sign ++ placePoint (Nat.toDigits 10 d.digits) (d.leading + 1)

/-- The number as a literal: written out from `10 ^ -5` up to below `10 ^ 16`, with an exponent
elsewhere, and with `.0` when it is whole and written out. -/
def layoutBrief (d : Decimal) : String :=
  let digits := Nat.toDigits 10 d.digits
  let e := d.leading
  if d.digits == 0 then d.sign ++ "0.0"
  else if -5 ≤ e && e < 16 then
    d.sign ++ placePoint digits (e + 1) ++ (if 0 ≤ d.exponent then ".0" else "")
  else
    let fraction := digits.drop 1
    let mantissa := String.ofList (digits.take 1) ++
      (if fraction.isEmpty then "" else "." ++ String.ofList fraction)
    d.sign ++ mantissa ++ "e" ++ (if e < 0 then "-" else "+") ++ toString e.natAbs

end Decimal

def Double.plain (x : Double) : String := (Decimal.shortest .up x).layoutPlain

def Double.brief (x : Double) : String := (Decimal.shortest .even x).layoutBrief

end PugTemplate
