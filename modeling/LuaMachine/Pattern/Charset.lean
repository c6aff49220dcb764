import LuaMachine.Bytes

/-!
# Sets of bytes in patterns

A pattern describes a single byte by `.`, by itself, by an escape or by a bracketed set.  An escape
`%x` is a class of bytes when `x` is a class letter (its complement for the capital letter) and the
byte `x` itself otherwise.  A set is a union of bytes, ranges and escapes, or its complement.

* `Escape.test`    whether a byte belongs to an escape;
* `Charset.test`   whether a byte belongs to a bracketed set;
* `Element.test`   whether a byte is what an element describes.
-/

namespace LuaMachine

/-- The class that a lower-case letter names. -/
def classNamed? (c : UInt8) : Option (UInt8 → Bool) :=
  if c == 0x61 then some Bytes.isAlpha
  else if c == 0x63 then some Bytes.isControl
  else if c == 0x64 then some Bytes.isDigit
  else if c == 0x67 then some Bytes.isGraphic
  else if c == 0x6c then some Bytes.isLower
  else if c == 0x70 then some Bytes.isPunct
  else if c == 0x73 then some Bytes.isBlank
  else if c == 0x75 then some Bytes.isUpper
  else if c == 0x77 then some Bytes.isAlnum
  else if c == 0x78 then some Bytes.isHexDigit
  else none

/-- The byte after an escape sign. -/
structure Escape where
  code : UInt8
deriving DecidableEq, Repr

/-- A class letter stands for its class, a capital one for the complement, any other byte for
itself. -/
def Escape.test (e : Escape) (b : UInt8) : Bool :=
  match classNamed? (Bytes.toLower e.code) with
  | some p => if Bytes.isUpper e.code then !p b else p b
  | none => b == e.code

inductive Member where
  | byte (b : UInt8)
  | range (lo hi : UInt8)
  | escape (e : Escape)
deriving DecidableEq, Repr

def Member.test : Member → UInt8 → Bool
  | .byte a, b => b == a
  | .range lo hi, b => lo ≤ b && b ≤ hi
  | .escape e, b => e.test b

/-- A bracketed set. -/
structure Charset where
  complement : Bool
  members : List Member
deriving DecidableEq, Repr

def Charset.test (s : Charset) (b : UInt8) : Bool :=
  (s.members.any (·.test b)) != s.complement

/-- The description of a single byte. -/
inductive Element where
  | any
  | byte (b : UInt8)
  | escape (e : Escape)
  | set (s : Charset)
deriving DecidableEq, Repr

def Element.test : Element → UInt8 → Bool
  | .any, _ => true
  | .byte a, b => b == a
  | .escape e, b => e.test b
  | .set s, b => s.test b

end LuaMachine
