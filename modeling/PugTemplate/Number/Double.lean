/-!
# Doubles

Finite binary floating point numbers of 53 bits, as exact data: a sign, a whole mantissa and a power
of two. Every operation computes the exact rational result and rounds it once, to the nearest double
and in a tie to the even mantissa. A result beyond the largest double is `none`.
-/

namespace PugTemplate

/-- A finite double, `± mantissa * 2 ^ exponent`. -/
structure Double where
  negative : Bool
  mantissa : Nat
  exponent : Int
  deriving DecidableEq, Repr, Inhabited

namespace Double

def minExponent : Int := -1074

def maxExponent : Int := 971

def zero (negative : Bool) : Double := ⟨negative, 0, minExponent⟩

/-- The quotient `num / den`, to the nearest whole number and in a tie to the even one. -/
def roundQuotient (num den : Nat) : Nat :=
  let q := num / den
  let r := num % den
  if 2 * r < den then q
  else if den < 2 * r then q + 1
  else if q % 2 == 0 then q
  else q + 1

/-- The fraction `num / den / 2 ^ e` as numerator and denominator. -/
def scale (num den : Nat) (e : Int) : Nat × Nat :=
  if 0 ≤ e then (num, den * Nat.pow 2 e.toNat) else (num * Nat.pow 2 (-e).toNat, den)

/-- The power of two of the last place that a double near `num / den` has. -/
def lastPlace (num den : Nat) : Int :=
  let e := max minExponent ((num.log2 : Int) - (den.log2 : Int) - 53)
  let (n, d) := scale num den e
  if Nat.pow 2 53 ≤ n / d then e + 1 else e

/-- The double nearest to `± num / den`. -/
def nearest (negative : Bool) (num den : Nat) : Option Double :=
  if num == 0 then some (zero negative)
  else
    let e := lastPlace num den
    let (n, d) := scale num den e
    let m := roundQuotient n d
    let (m, e) := if m == Nat.pow 2 53 then (Nat.pow 2 52, e + 1) else (m, e)
    if maxExponent < e then none else some ⟨negative, m, e⟩

/-- The double nearest to `± m * 2 ^ e`. -/
def nearestScaled (negative : Bool) (m : Nat) (e : Int) : Option Double :=
  if 0 ≤ e then nearest negative (m * Nat.pow 2 e.toNat) 1
  else nearest negative m (Nat.pow 2 (-e).toNat)

/-! ## Arithmetic -/

def neg (x : Double) : Double := { x with negative := !x.negative }

/-- The mantissa when it is counted in units of `2 ^ e`, for `e` at most the exponent. -/
def inUnits (x : Double) (e : Int) : Nat := x.mantissa * Nat.pow 2 (x.exponent - e).toNat

def add (x y : Double) : Option Double :=
  let e := min x.exponent y.exponent
  let part (z : Double) : Int := if z.negative then -(z.inUnits e : Int) else z.inUnits e
  let s := part x + part y
  if s == 0 then some (zero (x.negative && y.negative))
  else nearestScaled (s < 0) s.natAbs e

def sub (x y : Double) : Option Double := x.add y.neg

def mul (x y : Double) : Option Double :=
  nearestScaled (x.negative != y.negative) (x.mantissa * y.mantissa) (x.exponent + y.exponent)

/-- The rounded quotient; there is none by zero. -/
def div (x y : Double) : Option Double :=
  if y.mantissa == 0 then none
  else
    let e := min x.exponent y.exponent
    nearest (x.negative != y.negative) (x.inUnits e) (y.inUnits e)

/-- The remainder of the division that drops the fraction of the quotient; there is none by zero. -/
def rem (x y : Double) : Option Double :=
  if y.mantissa == 0 then none
  else
    let e := min x.exponent y.exponent
    nearestScaled x.negative (x.inUnits e % y.inUnits e) e

/-! ## Integers -/

def ofInt (n : Int) : Option Double := nearest (n < 0) n.natAbs 1

def isIntegral (x : Double) : Bool :=
  0 ≤ x.exponent || x.mantissa % Nat.pow 2 (-x.exponent).toNat == 0

/-- The integer that remains when the fraction is dropped. -/
def truncate (x : Double) : Int :=
  let n := if 0 ≤ x.exponent then x.mantissa * Nat.pow 2 x.exponent.toNat
    else x.mantissa / Nat.pow 2 (-x.exponent).toNat
  if x.negative then -(n : Int) else n

def isZero (x : Double) : Bool := x.mantissa == 0

/-! ## Decimal texts -/

/-- The double nearest to `± digits * 10 ^ e`. Exponents that put the number far beyond the doubles,
or far below them, are settled without computing the power. -/
def ofDecimal (negative : Bool) (digits : Nat) (e : Int) : Option Double :=
  let size := (digits.log2 : Int) / 3
  if digits == 0 then some (zero negative)
  else if 400 < e then none
  else if e + size < -800 then some (zero negative)
  else if 0 ≤ e then nearest negative (digits * Nat.pow 10 e.toNat) 1
  else nearest negative digits (Nat.pow 10 (-e).toNat)

/-- The value of a decimal digit string, after the digits read before it. -/
def digitsValue (digits : List Char) : Nat :=
  digits.foldl (fun n c => 10 * n + (c.toNat - '0'.toNat)) 0

/-- Reads the exponent part of a decimal text; no text is exponent zero. -/
def readExponent? : List Char → Option Int
  | [] => some 0
  | mark :: cs =>
    if mark != 'e' && mark != 'E' then none
    else
      let (negative, ds) := match cs with
        | '-' :: ds => (true, ds)
        | '+' :: ds => (false, ds)
        | ds => (false, ds)
      if ds.isEmpty || !ds.all Char.isDigit then none
      else some (if negative then -(digitsValue ds : Int) else digitsValue ds)

/-- Reads a decimal text: a sign, digits with a point somewhere, and an exponent part. -/
def read? (cs : List Char) : Option Double :=
  let (negative, cs) := match cs with
    | '-' :: cs => (true, cs)
    | '+' :: cs => (false, cs)
    | cs => (false, cs)
  let whole := cs.takeWhile Char.isDigit
  let cs := cs.dropWhile Char.isDigit
  let (fraction, cs) := match cs with
    | '.' :: cs => (cs.takeWhile Char.isDigit, cs.dropWhile Char.isDigit)
    | cs => ([], cs)
  if whole.isEmpty && fraction.isEmpty then none
  else do
    let e ← readExponent? cs
    ofDecimal negative (digitsValue (whole ++ fraction)) (e - fraction.length)

end Double
end PugTemplate
