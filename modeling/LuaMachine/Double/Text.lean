import LuaMachine.Bytes
import LuaMachine.Double

/-!
# Writing numbers

A number is written with fourteen significant digits, a tie going to the even last digit; trailing
zeros are dropped.  A decimal exponent from `-4` to `13` is written positionally, any other one as
`e` with a sign and at least two digits.  A text that would read as an integer ends in `.0`.

* `Decimal`           fourteen significant digits and a decimal exponent;
* `Double.decimal`    the decimal nearest to a number;
* `Double.text`       the text of a number.
-/

namespace LuaMachine

def pow10 (k : Nat) : Nat := Nat.pow 10 k

/-- The positive number `digits · 10^(exponent - 13)`, where `digits` has fourteen digits. -/
structure Decimal where
  digits : Nat
  exponent : Int
deriving DecidableEq, Repr

namespace Double

/-- The largest exponent a double can have in decimal, and as many places after the point as the
least subnormal needs to show its first digit. -/
def exponentSearch : Nat := 330

/-- The exponent `e` with `10^e ≤ num / den < 10^(e+1)`, for a positive quotient of that range. -/
def decimalExponent (num den : Nat) : Int :=
  if den ≤ num then ((Nat.toDigits 10 (num / den)).length : Int) - 1
  else
    match (List.range exponentSearch).find? fun k => den ≤ num * pow10 k with
    | some k => -(k : Int)
    | none => -(exponentSearch : Int)

/-- Fourteen significant digits of the positive quotient `num / den`. -/
def decimalOfRatio (num den : Nat) : Decimal :=
  let e := decimalExponent num den
  let k : Int := 13 - e
  let q := if 0 ≤ k then roundQuotient (num * pow10 k.toNat) den
    else roundQuotient num (den * pow10 (-k).toNat)
  if q == pow10 14 then ⟨pow10 13, e + 1⟩ else ⟨q, e⟩

/-- The absolute value of a finite number other than zero, to fourteen digits. -/
def decimal (x : Double) : Decimal := decimalOfRatio x.absUnits one

end Double

namespace Decimal

def dropTrailingZeros (ds : List Char) : List Char :=
  (ds.reverse.dropWhile (· == '0')).reverse

/-- A whole part, and a fraction if any digit of it is left. -/
def pointed (whole fraction : List Char) : List Char :=
  match dropTrailingZeros fraction with
  | [] => whole
  | ds => whole ++ '.' :: ds

/-- An exponent with its sign and at least two digits. -/
def exponentText (e : Int) : List Char :=
  let ds := Nat.toDigits 10 e.natAbs
  (if e < 0 then '-' else '+') :: (if ds.length < 2 then '0' :: ds else ds)

/-- The text of a decimal, positional from `10^-4` up to `10^14`. -/
def text (d : Decimal) : List Char :=
  let ds := Nat.toDigits 10 d.digits
  if d.exponent < -4 ∨ 14 ≤ d.exponent then
    pointed (ds.take 1) (ds.drop 1) ++ 'e' :: exponentText d.exponent
  else if d.exponent < 0 then
    pointed ['0'] (List.replicate ((-d.exponent).toNat - 1) '0' ++ ds)
  else
    let n := d.exponent.toNat + 1
    pointed (ds.take n) (ds.drop n)

end Decimal

namespace Double

def absText (x : Double) : List Char :=
  if x.isNaN then ['n', 'a', 'n']
  else if x.isInfinite then ['i', 'n', 'f']
  else if x.isZero then ['0']
  else x.decimal.text

/-- The text of a number.  It never reads as an integer: `.0` follows a text of digits alone. -/
def text (x : Double) : Bytes :=
  let body := x.absText
  let body := if body.all Char.isDigit then body ++ ['.', '0'] else body
  Bytes.ofAscii (if x.negative then '-' :: body else body)

end Double

end LuaMachine
