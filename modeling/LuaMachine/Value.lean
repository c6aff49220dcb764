import LuaMachine.Bytes.Utf8
import LuaMachine.Double.Text

/-!
# Values

A value is nil, a boolean, an integer, a float, a byte string, or a reference to a table, a function
or a thread.  References are numbers into the heap; what they refer to is not part of the value.

* `Value.rawEq`     equality without metamethods; an integer and a float are compared as floats;
* `Value.key?`      the key that a value is stored under: an integral float is its integer, nil and
                    NaN are no keys;
* `Value.text?`     the text of a string or number;
* `Value.display`   the text of any value.
-/

namespace LuaMachine

structure TableId where
  index : Nat
deriving DecidableEq, Hashable, Inhabited, Repr

structure FunctionId where
  index : Nat
deriving DecidableEq, Hashable, Inhabited, Repr

structure ThreadId where
  index : Nat
deriving DecidableEq, Hashable, Inhabited, Repr

inductive Value where
  | nil
  | boolean (b : Bool)
  | integer (n : Int64)
  | float (x : Double)
  | string (s : Bytes)
  | table (t : TableId)
  | function (f : FunctionId)
  | thread (c : ThreadId)
deriving DecidableEq, Hashable, Inhabited, Repr

inductive Ty where
  | nil | boolean | number | string | table | function | thread
deriving DecidableEq, Repr

def Ty.name : Ty → String
  | .nil => "nil"
  | .boolean => "boolean"
  | .number => "number"
  | .string => "string"
  | .table => "table"
  | .function => "function"
  | .thread => "thread"

namespace Value

def text (s : String) : Value := .string (Bytes.ofString s)

def count (n : Nat) : Value := .integer (Int64.ofNat n)

def ty : Value → Ty
  | .nil => .nil
  | .boolean _ => .boolean
  | .integer _ => .number
  | .float _ => .number
  | .string _ => .string
  | .table _ => .table
  | .function _ => .function
  | .thread _ => .thread

def isNil : Value → Bool
  | .nil => true
  | _ => false

/-- Nil and false are false, everything else is true. -/
def truthy : Value → Bool
  | .nil => false
  | .boolean b => b
  | _ => true

def boolean? : Value → Option Bool
  | .boolean b => some b
  | _ => none

/-- The integer that a number is, also when it is written as a float. -/
def integer? : Value → Option Int64
  | .integer n => some n
  | .float x => x.toInteger?
  | _ => none

/-- The number of a value as a float; an integer is rounded to the nearest one. -/
def double? : Value → Option Double
  | .integer n => some (Double.ofInt n.toInt)
  | .float x => some x
  | _ => none

/-- The text of a string or number. -/
def text? : Value → Option Bytes
  | .integer n => some (Bytes.ofInt n.toInt)
  | .float x => some x.text
  | .string s => some s
  | _ => none

/-- Equality without metamethods.  Numbers of different kinds are equal when the integer, rounded to
a float, equals the float; strings are equal by content and references by identity. -/
def rawEq : Value → Value → Bool
  | .nil, .nil => true
  | .boolean a, .boolean b => a == b
  | .integer a, .integer b => a == b
  | .float a, .float b => a.eq b
  | .integer a, .float b => (Double.ofInt a.toInt).eq b
  | .float a, .integer b => a.eq (Double.ofInt b.toInt)
  | .string a, .string b => a == b
  | .table a, .table b => a == b
  | .function a, .function b => a == b
  | .thread a, .thread b => a == b
  | _, _ => false

/-- The key that a value stands for in a table: an integral float is its integer, nil and NaN are
none. -/
def key? : Value → Option Value
  | .nil => none
  | .float x =>
    match x.toInteger? with
    | some n => some (.integer n)
    | none => if x.isNaN then none else some (.float x)
  | v => some v

/-- The mark that stands where a reference would show its address. -/
def addressMark : String := "0xADDR"

/-- The text of a reference: a label and the address mark. -/
def referenceText (label : Bytes) : Bytes := label ++ Bytes.ofString (": " ++ addressMark)

/-- The text of a value; ill-formed UTF-8 is replaced. -/
def display : Value → Bytes
  | .nil => Bytes.ofString "nil"
  | .boolean b => Bytes.ofString (if b then "true" else "false")
  | .integer n => Bytes.ofInt n.toInt
  | .float x => x.text
  | .string s => Utf8.lossy s
  | .table _ => referenceText (Bytes.ofString "table")
  | .function _ => referenceText (Bytes.ofString "function")
  | .thread _ => referenceText (Bytes.ofString "thread")

end Value

/-! ## lists of values

Calls take and give lists of values; where one value is needed the first is taken. -/

namespace Value

def first (vs : List Value) : Value := vs.headD .nil

/-- The value at a position counted from zero, nil if there is none. -/
def nth (vs : List Value) (i : Nat) : Value := vs.getD i .nil

end Value

end LuaMachine
