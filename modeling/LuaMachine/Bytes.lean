/-!
# Byte strings

A string of the machine is a sequence of bytes with no encoding of its own.  This module fixes the
type and the few byte-level operations that the rest of the library shares:

* `Bytes.ofString`    the UTF-8 bytes of a text, used for every name and message;
* `Bytes.ofInt`       the decimal text of an integer;
* `Bytes.compare`     the order of strings: byte by byte, a proper beginning comes first;
* `Bytes.slice`       the bytes between two offsets;
* `Bytes.agree`       whether two stretches hold the same bytes;
* `Bytes.lower`, `Bytes.upper`   ASCII case maps.
-/

namespace LuaMachine

/-- A string of the machine: any sequence of bytes. -/
abbrev Bytes := Array UInt8

namespace Bytes

def ofString (s : String) : Bytes := s.toUTF8.data

/-- The byte of an ASCII character. -/
def code (c : Char) : UInt8 := c.toNat.toUInt8

def ofAscii (cs : List Char) : Bytes := (cs.map code).toArray

def ofNat (n : Nat) : Bytes := ofAscii (Nat.toDigits 10 n)

/-- The decimal text of an integer, with a minus sign when it is negative. -/
def ofInt (n : Int) : Bytes :=
  ofAscii (if n < 0 then '-' :: Nat.toDigits 10 n.natAbs else Nat.toDigits 10 n.natAbs)

/-- The bytes from offset `i` up to, not including, offset `j`. -/
def slice (s : Bytes) (i j : Nat) : Bytes := s.extract i j

/-- Whether the `n` bytes of `s` from offset `i` on are those of `t` from offset `j` on.  Past its
end a string reads as zeros. -/
def agree (s : Bytes) (i : Nat) (t : Bytes) (j : Nat) : Nat → Bool
  | 0 => true
  | n + 1 => s.getD i 0 == t.getD j 0 && agree s (i + 1) t (j + 1) n

/-- The order of two strings by the `n` bytes from offset `i` on; if these are the same, the shorter
string comes first. -/
def compareFrom (s t : Bytes) (i : Nat) : Nat → Ordering
  | 0 => if s.size < t.size then .lt else if t.size < s.size then .gt else .eq
  | n + 1 =>
    if s.getD i 0 < t.getD i 0 then .lt
    else if t.getD i 0 < s.getD i 0 then .gt
    else compareFrom s t (i + 1) n

def compare (s t : Bytes) : Ordering := compareFrom s t 0 (min s.size t.size)

/-! ## ASCII -/

def isDigit (b : UInt8) : Bool := 0x30 ≤ b && b ≤ 0x39
def isLower (b : UInt8) : Bool := 0x61 ≤ b && b ≤ 0x7a
def isUpper (b : UInt8) : Bool := 0x41 ≤ b && b ≤ 0x5a
def isAlpha (b : UInt8) : Bool := isLower b || isUpper b
def isAlnum (b : UInt8) : Bool := isAlpha b || isDigit b
def isHexDigit (b : UInt8) : Bool :=
  isDigit b || (0x61 ≤ b && b ≤ 0x66) || (0x41 ≤ b && b ≤ 0x46)

/-- Space, tab, newline, vertical tab, form feed and carriage return. -/
def isBlank (b : UInt8) : Bool := b == 0x20 || (0x09 ≤ b && b ≤ 0x0d)

def isControl (b : UInt8) : Bool := b < 0x20 || b == 0x7f

/-- The visible ASCII characters: everything printable but the space. -/
def isGraphic (b : UInt8) : Bool := 0x21 ≤ b && b ≤ 0x7e

def isPunct (b : UInt8) : Bool := isGraphic b && !isAlnum b

def toLower (b : UInt8) : UInt8 := if isUpper b then b + 0x20 else b
def toUpper (b : UInt8) : UInt8 := if isLower b then b - 0x20 else b

def lower (s : Bytes) : Bytes := s.map toLower
def upper (s : Bytes) : Bytes := s.map toUpper

end Bytes

end LuaMachine
