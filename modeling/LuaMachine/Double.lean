/-!
# Binary64 numbers

A `Double` is a 64-bit IEEE 754 word: a sign, an eleven-bit exponent field and a 52-bit fraction.
All operations are exact integer arithmetic on these fields.

* `Double.units`       the value of a number as a multiple of `2^-1074`, the least subnormal;
* `roundQuotient`      the integer nearest to a quotient, a tie going to the even one;
* `Double.ofRatio`     the number nearest to a rational, a tie going to the even significand;
* `Double.ofInt`, `Double.toInteger?`   to and from integers;
* `Double.eq`, `Double.lt`   comparison by value, where a NaN compares with nothing.

The word of an infinity continues the scale of `units` past the largest finite number, so that
comparison needs no case for it.
-/

namespace LuaMachine

/-- A binary64 number, given by its bits. -/
structure Double where
  bits : UInt64
deriving DecidableEq, Hashable, Inhabited, Repr

def pow2 (k : Nat) : Nat := Nat.pow 2 k

/-- The signed 64-bit integer with a value, if there is one. -/
def exactInt64? (i : Int) : Option Int64 :=
  if Int64.minValue.toInt ≤ i ∧ i ≤ Int64.maxValue.toInt then some (Int64.ofInt i) else none

/-- The integer nearest to `num / den`; of two equally near ones the even one. -/
def roundQuotient (num den : Nat) : Nat :=
  let q := num / den
  let r := num % den
  if 2 * r > den || (2 * r == den && q % 2 == 1) then q + 1 else q

namespace Double

/-! ## fields -/

def negative (x : Double) : Bool := pow2 63 ≤ x.bits.toNat

/-- The word without its sign. -/
def magnitude (x : Double) : Nat := x.bits.toNat % pow2 63

/-- The biased exponent: `0` for zero and subnormals, `2047` for infinities and NaNs. -/
def field (x : Double) : Nat := x.magnitude / pow2 52

def fraction (x : Double) : Nat := x.magnitude % pow2 52

def isNaN (x : Double) : Bool := x.field == 2047 && x.fraction != 0
def isInfinite (x : Double) : Bool := x.field == 2047 && x.fraction == 0
def isFinite (x : Double) : Bool := x.field != 2047
def isZero (x : Double) : Bool := x.magnitude == 0

/-- The absolute value as a multiple of `2^-1074`. -/
def absUnits (x : Double) : Nat :=
  if x.field == 0 then x.fraction else (pow2 52 + x.fraction) * pow2 (x.field - 1)

/-- The value as a multiple of `2^-1074`. -/
def units (x : Double) : Int := if x.negative then -(x.absUnits : Int) else x.absUnits

/-- How many units make up the number one. -/
def one : Nat := pow2 1074

/-! ## building numbers -/

/-- The number with the given sign and unsigned word. -/
def ofMagnitude (negative : Bool) (m : Nat) : Double :=
  ⟨UInt64.ofNat (if negative then pow2 63 + m else m)⟩

def infinityWord : Nat := 2047 * pow2 52

def zero : Double := ⟨0⟩

def infinity (negative : Bool) : Double := ofMagnitude negative infinityWord

def quiet (negative : Bool) : Double := ofMagnitude negative (infinityWord + pow2 51)

/-- The NaN that an invalid operation gives; its sign bit is set. -/
def invalid : Double := quiet true

def neg (x : Double) : Double := ofMagnitude (!x.negative) x.magnitude

/-- The word of the number nearest to `num / den` units.  A quotient of at most 53 bits is a
multiple of one unit; a longer one is rounded to 53 significant bits.  Adding the significand to the
shifted exponent lets a carry run into the exponent field. -/
def nearestWord (num den : Nat) : Nat :=
  let length := (num / den).log2 + 1
  let shift := length - 53
  min (shift * pow2 52 + roundQuotient num (den * pow2 shift)) infinityWord

/-- The number nearest to `±num / den`, a tie going to the even significand; too large a quotient
gives an infinity, too small a one a zero of the given sign. -/
def ofRatio (negative : Bool) (num den : Nat) : Double :=
  ofMagnitude negative (nearestWord (num * one) den)

def ofInt (n : Int) : Double := ofRatio (n < 0) n.natAbs 1

/-- The integer that the number is, when it is one and fits 64 bits. -/
def toInteger? (x : Double) : Option Int64 :=
  if x.isFinite && x.absUnits % one == 0 then
    let n := (x.absUnits / one : Nat)
    exactInt64? (if x.negative then -n else n)
  else none

/-! ## arithmetic -/

/-- The product with `2^k`.  The factor itself is a binary64 number reached by squaring, and for a
negative exponent by a reciprocal: it is infinite from `2^1024` on, and zero from `2^-1024` down. -/
def scale (x : Double) (k : Int) : Double :=
  if x.isNaN then x
  else if 1024 ≤ k then
    if x.isZero then invalid else infinity x.negative
  else if k ≤ -1024 then
    if x.isInfinite then invalid else ofMagnitude x.negative 0
  else if x.isInfinite then x
  else if 0 ≤ k then ofMagnitude x.negative (nearestWord (x.absUnits * pow2 k.toNat) 1)
  else ofMagnitude x.negative (nearestWord x.absUnits (pow2 (-k).toNat))

/-- The sum of a number that is not negative and a natural number. -/
def addNat (x : Double) (n : Nat) : Double :=
  if x.isFinite then ofMagnitude false (nearestWord (x.absUnits + n * one) 1) else x

/-! ## comparison -/

def eq (x y : Double) : Bool := !x.isNaN && !y.isNaN && x.units == y.units
def lt (x y : Double) : Bool := !x.isNaN && !y.isNaN && decide (x.units < y.units)

end Double

end LuaMachine
