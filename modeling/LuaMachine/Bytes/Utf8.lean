import LuaMachine.Bytes

/-!
# Reading bytes as UTF-8

Messages are texts, so bytes that do not form UTF-8 are replaced when they enter one: each maximal
beginning of a well-formed sequence that is cut short, and each byte that starts none, becomes one
replacement character.

* `Utf8.follow`   how many continuation bytes a first byte asks for;
* `Utf8.valid`    whether the bytes are well-formed UTF-8;
* `Utf8.lossy`    the bytes with every ill-formed part replaced.
-/

namespace LuaMachine.Utf8

/-- What a first byte asks for: the number of continuation bytes, and the range that the first of
them lies in.  The narrow ranges exclude overlong forms, surrogates and what is past U+10FFFF. -/
def follow (b : UInt8) : Option (Nat × UInt8 × UInt8) :=
  if b < 0x80 then some (0, 0x80, 0xbf)
  else if b < 0xc2 then none
  else if b < 0xe0 then some (1, 0x80, 0xbf)
  else if b == 0xe0 then some (2, 0xa0, 0xbf)
  else if b == 0xed then some (2, 0x80, 0x9f)
  else if b < 0xf0 then some (2, 0x80, 0xbf)
  else if b == 0xf0 then some (3, 0x90, 0xbf)
  else if b < 0xf4 then some (3, 0x80, 0xbf)
  else if b == 0xf4 then some (3, 0x80, 0x8f)
  else none

/-- How many of the next bytes, at most `n`, continue a sequence whose next byte must lie between
`lo` and `hi`; later ones may be any continuation byte. -/
def continued : Nat → UInt8 → UInt8 → List UInt8 → Nat
  | 0, _, _, _ => 0
  | _ + 1, _, _, [] => 0
  | n + 1, lo, hi, b :: bs => if lo ≤ b && b ≤ hi then continued n 0x80 0xbf bs + 1 else 0

/-- The first sequence of a nonempty byte list: how many bytes after the first belong to it, and
whether it is complete. -/
def sequenceAt (b : UInt8) (bs : List UInt8) : Nat × Bool :=
  match follow b with
  | none => (0, false)
  | some (n, lo, hi) =>
    let k := continued n lo hi bs
    (k, k == n)

def validList : List UInt8 → Bool
  | [] => true
  | b :: bs =>
    let (k, complete) := sequenceAt b bs
    complete && validList (bs.drop k)
termination_by bs => bs.length
decreasing_by simp only [List.length_drop, List.length_cons]; omega

def valid (s : Bytes) : Bool := validList s.toList

/-- The UTF-8 form of U+FFFD. -/
def replacement : List UInt8 := [0xef, 0xbf, 0xbd]

def lossyList : List UInt8 → List UInt8
  | [] => []
  | b :: bs =>
    let (k, complete) := sequenceAt b bs
    (if complete then b :: bs.take k else replacement) ++ lossyList (bs.drop k)
termination_by bs => bs.length
decreasing_by simp only [List.length_drop, List.length_cons]; omega

/-- The bytes with each ill-formed part replaced by U+FFFD. -/
def lossy (s : Bytes) : Bytes := (lossyList s.toList).toArray

end LuaMachine.Utf8
