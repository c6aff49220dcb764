import LuaMachine.Bytes.Utf8
import LuaMachine.Double.Text

/-!
# Reading numerals

A numeral is well-formed text that may stand between blanks and have one sign.

* `integerText?`, `floatText?`   parsers of signed integers between bounds and of signed floats, which
                                 take more texts than there are numerals;
* `readDecimal`                  lets only some bytes through to these parsers: digits are an integer
                                 if it fits 64 bits, all else is the nearest float;
* `readHex`                      digits are an integer modulo `2^64`; with a point or a binary exponent
                                 they are a float, rounded digit by digit;
* `read`, `readBase`             numerals, and integers in a base up to 36.
-/

namespace LuaMachine

/-- A number as a numeral denotes it. -/
inductive Numeral where
  | integer (n : Int64)
  | float (x : Double)
deriving DecidableEq, Repr

namespace Numeral

/-! ## blanks, signs and digits -/

def trim (s : List UInt8) : List UInt8 :=
  ((s.dropWhile Bytes.isBlank).reverse.dropWhile Bytes.isBlank).reverse

/-- A leading sign, whether it is a minus, and the rest. -/
def splitSign : List UInt8 → Bool × List UInt8
  | 0x2d :: r => (true, r)
  | 0x2b :: r => (false, r)
  | r => (false, r)

/-- The value of a digit or letter, whatever the base. -/
def digitValue? (b : UInt8) : Option Nat :=
  if Bytes.isDigit b then some (b.toNat - 0x30)
  else if Bytes.isLower b then some (b.toNat - 0x61 + 10)
  else if Bytes.isUpper b then some (b.toNat - 0x41 + 10)
  else none

def digitIn? (base : Nat) (b : UInt8) : Option Nat :=
  (digitValue? b).filter (· < base)

/-- The number of digits up to which a value is built digit by digit. -/
def shortLength : Nat := 32

/-- The value of a list of digits in a base, the highest digit first.  A long list is cut in two
halves, so that the numbers multiplied are of like size. -/
def positional (base : Nat) (ds : List Nat) : Nat :=
  if ds.length ≤ shortLength then ds.foldl (fun n d => n * base + d) 0
  else
    let k := ds.length / 2
    positional base (ds.take k) * Nat.pow base (ds.length - k) + positional base (ds.drop k)
termination_by ds.length
decreasing_by
  all_goals
    simp only [shortLength, List.length_take, List.length_drop] at *
    omega

/-- The digits that the bytes of a nonempty list stand for. -/
def digits? (base : Nat) : List UInt8 → Option (List Nat)
  | [] => none
  | bs => bs.mapM (digitIn? base)

/-- The value of a list of decimal digits, `0` for the empty one. -/
def decimalValue (ds : List UInt8) : Nat := positional 10 (ds.map fun b => b.toNat - 0x30)

/-- Digits taken in one by one, each step modulo `2^64`, and the sign at the end. -/
def takenIn (base : Nat) (minus : Bool) (ds : List Nat) : Int64 :=
  let sum := ds.foldl (fun a d => a * Int64.ofNat base + Int64.ofNat d) 0
  if minus then -sum else sum

/-! ## integers -/

/-- An integer between two bounds: an optional sign and decimal digits. -/
def integerText? (lo hi : Int) (s : List UInt8) : Option Int :=
  let (minus, ds) := splitSign s
  if ds.isEmpty || !ds.all Bytes.isDigit then none
  else
    let n : Int := if minus then -(decimalValue ds : Int) else decimalValue ds
    if lo ≤ n ∧ n ≤ hi then some n else none

def int64Text? (s : List UInt8) : Option Int64 :=
  (integerText? Int64.minValue.toInt Int64.maxValue.toInt s).map Int64.ofInt

def int32Text? : List UInt8 → Option Int := integerText? Int32.minValue.toInt Int32.maxValue.toInt

/-! ## floats -/

/-- The digits before and after the point, and the exponent, of a decimal numeral. -/
structure Decimals where
  whole : List UInt8
  fraction : List UInt8
  exponent : Int
deriving DecidableEq, Repr

/-- The size from which on a decimal exponent takes in no more digits. -/
def exponentFull : Nat := 0x10000

/-- The size of a decimal exponent.  Its digits are taken in from the left until the size is full;
the digits after that are read but do not count. -/
def exponentSize (ds : List UInt8) : Nat :=
  ds.foldl (fun n b => if n < exponentFull then n * 10 + (b.toNat - 0x30) else n) 0

/-- A decimal exponent: nothing, or `e` with an optional sign and at least one digit. -/
def exponent? : List UInt8 → Option Int
  | [] => some 0
  | e :: r =>
    if e == 0x65 || e == 0x45 then
      let (minus, ds) := splitSign r
      if ds.isEmpty || !ds.all Bytes.isDigit then none
      else some (if minus then -(exponentSize ds : Int) else exponentSize ds)
    else none

/-- A decimal numeral without its sign. -/
def decimals? (s : List UInt8) : Option Decimals :=
  let whole := s.takeWhile Bytes.isDigit
  let rest := s.dropWhile Bytes.isDigit
  match rest with
  | 0x2e :: r =>
    let fraction := r.takeWhile Bytes.isDigit
    if whole.isEmpty && fraction.isEmpty then none
    else (exponent? (r.dropWhile Bytes.isDigit)).map (⟨whole, fraction, ·⟩)
  | _ => if whole.isEmpty then none else (exponent? rest).map (⟨whole, [], ·⟩)

/-- Decimal exponents beyond this bound, counted from the first digit, overflow or vanish. -/
def exponentBound : Nat := 400

/-- The float nearest to a decimal numeral.  An exponent that puts the value out of range is cut
off first, so that no huge power is ever computed. -/
def Decimals.toDouble (d : Decimals) (minus : Bool) : Double :=
  let n := decimalValue (d.whole ++ d.fraction)
  let e : Int := d.exponent - d.fraction.length
  let size : Int := d.whole.length + d.fraction.length
  if n == 0 then Double.ofMagnitude minus 0
  else if exponentBound < e then Double.infinity minus
  else if e < -(exponentBound : Int) - size then Double.ofMagnitude minus 0
  else if 0 ≤ e then Double.ofRatio minus (n * pow10 e.toNat) 1
  else Double.ofRatio minus n (pow10 (-e).toNat)

/-- The words `inf` and `infinity`. -/
def infinityWords : List (List UInt8) :=
  [[0x69, 0x6e, 0x66], [0x69, 0x6e, 0x66, 0x69, 0x6e, 0x69, 0x74, 0x79]]

def nanWord : List UInt8 := [0x6e, 0x61, 0x6e]

/-- A float: an optional sign, and a decimal numeral or a word in letters of any case. -/
def floatText? (s : List UInt8) : Option Double :=
  let (minus, r) := splitSign s
  let word := r.map Bytes.toLower
  if infinityWords.contains word then some (Double.infinity minus)
  else if word == nanWord then some (Double.quiet minus)
  else (decimals? r).map (·.toDouble minus)

/-! ## decimal numerals -/

def isDecimalMark (b : UInt8) : Bool := b == 0x2e || b == 0x65 || b == 0x45

def isDecimalByte (b : UInt8) : Bool :=
  Bytes.isDigit b || isDecimalMark b || b == 0x2b || b == 0x2d

/-- A decimal numeral, and what follows its sign. -/
def readDecimal (s rest : List UInt8) : Option Numeral :=
  if !rest.any Bytes.isDigit || !rest.all isDecimalByte then none
  else if rest.any isDecimalMark then (floatText? s).map .float
  else (int64Text? s).map .integer <|> (floatText? s).map .float

/-! ## hexadecimal numerals -/

/-- Whether a byte marks a hexadecimal float: a point or a binary exponent. -/
def isFloatMark (b : UInt8) : Bool := b == 0x2e || b == 0x70 || b == 0x50

def isExponentMark (b : UInt8) : Bool := b == 0x70 || b == 0x50

/-- The digits of a hexadecimal mantissa, each one taken in by multiplying with sixteen and adding
it, both rounded.  A second point is refused. -/
def mantissa? : List UInt8 → Bool → Double → Nat → Option (Double × Nat)
  | [], _, m, places => some (m, places)
  | b :: bs, pointed, m, places =>
    if b == 0x2e then
      if pointed then none else mantissa? bs true m places
    else
      match digitIn? 16 b with
      | none => none
      | some d =>
        mantissa? bs pointed ((m.scale 4).addNat d) (if pointed then places + 1 else places)

def hexFloat? (s : List UInt8) : Option Double := do
  let mantissa := s.takeWhile (!isExponentMark ·)
  let e ← match s.dropWhile (!isExponentMark ·) with
    | [] => some 0
    | _ :: r => int32Text? r
  guard (mantissa.any (· != 0x2e))
  let (m, places) ← mantissa? mantissa false Double.zero 0
  return (m.scale (-4 * places)).scale e

/-- A hexadecimal numeral after `0x`. -/
def readHex (minus : Bool) (s : List UInt8) : Option Numeral :=
  if s.any isFloatMark then (hexFloat? s).map fun x => .float (if minus then x.neg else x)
  else (digits? 16 s).map fun ds => .integer (takenIn 16 minus ds)

/-! ## reading -/

/-- The number that a numeral denotes, if the bytes are one. -/
def read (s : Bytes) : Option Numeral :=
  if !Utf8.valid s then none
  else
    let text := trim s.toList
    let (minus, rest) := splitSign text
    match rest with
    | 0x30 :: x :: r => if x == 0x78 || x == 0x58 then readHex minus r else readDecimal text rest
    | _ => readDecimal text rest

/-- The integer, modulo `2^64`, that the bytes denote in a base from 2 to 36. -/
def readBase (s : Bytes) (base : Nat) : Option Int64 :=
  if !Utf8.valid s then none
  else
    let (minus, rest) := splitSign (trim s.toList)
    (digits? base rest).map (takenIn base minus)

end Numeral

end LuaMachine
