import LuaMachine.Pattern.Error
import LuaMachine.Value

/-!
# Failures

`Failure` names every way in which an operation of the machine fails.  A failure that a program
catches becomes a value (`Failure.value`): the raised value itself, or the message as a string.

* `Complaint`          failures of library functions that are raised as messages;
* `ArgumentProblem`    what is wrong with an argument;
* `Failure.message`    the wording of each failure.
-/

namespace LuaMachine

inductive Status where
  | suspended | running | normal | dead
deriving DecidableEq, Repr

def Status.name : Status → String
  | .suspended => "suspended"
  | .running => "running"
  | .normal => "normal"
  | .dead => "dead"

/-- An operation on one operand that some types do not support. -/
inductive UnaryOperation where
  | index | call | length
deriving DecidableEq, Repr

def UnaryOperation.name : UnaryOperation → String
  | .index => "index"
  | .call => "call"
  | .length => "get length of"

/-- An operation on two operands that some pairs of types do not support. -/
inductive BinaryOperation where
  | compare | concatenate
deriving DecidableEq, Repr

def BinaryOperation.name : BinaryOperation → String
  | .compare => "compare"
  | .concatenate => "concatenate"

inductive ArgumentProblem where
  /-- The argument is missing, and any value would do. -/
  | missing
  /-- The argument has the wrong type, or is missing where a type is asked for. -/
  | expected (wanted : String) (got : Option Ty)
  /-- A float that is no integer. -/
  | notInteger
  | baseRange
  | indexRange
  | valueRange
  | positionRange
  | noLength
  /-- An unknown option of the collector, as text. -/
  | unknownOption (name : Bytes)
deriving DecidableEq, Repr

def ArgumentProblem.message : ArgumentProblem → Bytes
  | .missing => Bytes.ofString "value expected"
  | .expected wanted got =>
    Bytes.ofString (wanted ++ " expected, got " ++ (match got with
      | some ty => ty.name
      | none => "no value"))
  | .notInteger => Bytes.ofString "number has no integer representation"
  | .baseRange => Bytes.ofString "base out of range"
  | .indexRange => Bytes.ofString "index out of range"
  | .valueRange => Bytes.ofString "value out of range"
  | .positionRange => Bytes.ofString "position out of bounds"
  | .noLength => Bytes.ofString "table or string expected"
  | .unknownOption name =>
    Bytes.ofString "invalid option '" ++ Utf8.lossy name ++ Bytes.ofString "'"

/-- A failure that is raised as a plain message. -/
inductive Complaint where
  | callChain
  | nextKey
  | position
  | nilGlobal (path : Bytes)
  | textNotString
  | protectedMetatable
  | assertion
  | tooLarge
  | replacement (ty : Ty)
  | lengthNotInteger (function : String)
  | concatValue (index : Int64)
  | insertArity
  | tooManyResults
deriving DecidableEq, Repr

def Complaint.message : Complaint → Bytes
  | .callChain => Bytes.ofString "'__call' chain too long; possible loop"
  | .nextKey => Bytes.ofString "invalid key to 'next'"
  | .position => Bytes.ofString "position out of bounds"
  | .nilGlobal path =>
    Bytes.ofString "attempt to call a nil value (global '" ++ path ++ Bytes.ofString "')"
  | .textNotString => Bytes.ofString "'__tostring' must return a string"
  | .protectedMetatable => Bytes.ofString "cannot change a protected metatable"
  | .assertion => Bytes.ofString "assertion failed!"
  | .tooLarge => Bytes.ofString "resulting string too large"
  | .replacement ty => Bytes.ofString ("invalid replacement value (a " ++ ty.name ++ ")")
  | .lengthNotInteger function =>
    Bytes.ofString ("object length is not an integer (in '" ++ function ++ "')")
  | .concatValue index =>
    Bytes.ofString "invalid value (at index " ++ Bytes.ofInt index.toInt
      ++ Bytes.ofString ") in table for 'concat'"
  | .insertArity => Bytes.ofString "wrong number of arguments to 'insert'"
  | .tooManyResults => Bytes.ofString "too many results to unpack"

inductive BadKey where
  | nil | nan
deriving DecidableEq, Repr

inductive CoroutineError where
  /-- A resume of a coroutine that is not suspended. -/
  | notSuspended (status : Status)
  /-- A yield with no coroutine running. -/
  | outside
deriving DecidableEq, Repr

inductive Failure where
  | operand (op : UnaryOperation) (ty : Ty)
  | operands (op : BinaryOperation) (left right : Ty)
  | badKey (why : BadKey)
  | indexChain
  | newIndexChain
  | stackOverflow
  | pattern (error : PatternError)
  | coroutine (error : CoroutineError)
  | argument (position : Nat) (function : String) (problem : ArgumentProblem)
  | complaint (c : Complaint)
  /-- A value raised by the program. -/
  | raised (v : Value)
deriving DecidableEq, Repr

def raisedMessage : Value → Bytes
  | .nil => Bytes.ofString "nil"
  | .integer n => Bytes.ofInt n.toInt
  | .float x => x.text
  | .string s => Utf8.lossy s
  | v => Bytes.ofString ("(error object is a " ++ v.ty.name ++ " value)")

namespace Failure

def message : Failure → Bytes
  | .operand op ty => Bytes.ofString ("attempt to " ++ op.name ++ " a " ++ ty.name ++ " value")
  | .operands op left right =>
    if op = .compare ∧ left = right then
      Bytes.ofString ("attempt to compare two " ++ left.name ++ " values")
    else Bytes.ofString ("attempt to " ++ op.name ++ " " ++ left.name ++ " with " ++ right.name)
  | .badKey .nil => Bytes.ofString "table index is nil"
  | .badKey .nan => Bytes.ofString "table index is NaN"
  | .indexChain => Bytes.ofString "'__index' chain too long; possible loop"
  | .newIndexChain => Bytes.ofString "'__newindex' chain too long; possible loop"
  | .stackOverflow => Bytes.ofString "stack overflow"
  | .pattern error => Bytes.ofString error.message
  | .coroutine (.notSuspended status) =>
    Bytes.ofString ("cannot resume " ++ status.name ++ " coroutine")
  | .coroutine .outside => Bytes.ofString "attempt to yield from outside a coroutine"
  | .argument position function problem =>
    Bytes.ofString ("bad argument #" ++ position.repr ++ " to '" ++ function ++ "' (")
      ++ problem.message ++ Bytes.ofString ")"
  | .complaint c => c.message
  | .raised v => raisedMessage v

/-- The value that a program sees when it catches the failure. -/
def value : Failure → Value
  | .raised v => v
  | f => .string f.message

end Failure

end LuaMachine
