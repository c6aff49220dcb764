import LuaMachine.Action
import LuaMachine.Numeral

/-!
# Arguments of library functions

Each function here reads one argument, given by its position counted from one, and says what is
wrong with it if it does not fit.
-/

namespace LuaMachine

instance : MonadLift (Except Failure) Action := ⟨Action.ofExcept⟩

namespace Numeral

def toValue : Numeral → Value
  | .integer n => .integer n
  | .float x => .float x

end Numeral

namespace Arguments

def get? (vs : List Value) (i : Nat) : Option Value := vs[i - 1]?

/-- A value of the wrong type as an argument, or none where one is needed. -/
def mismatchOf (got : Option Value) (i : Nat) (f wanted : String) : Failure :=
  .argument i f (.expected wanted (got.map Value.ty))

def mismatch (vs : List Value) (i : Nat) (f wanted : String) : Failure :=
  mismatchOf (get? vs i) i f wanted

/-- Whether an argument is missing or nil. -/
def isOmitted (vs : List Value) (i : Nat) : Bool := ((get? vs i).getD .nil).isNil

/-- Any value, but not none. -/
def required (vs : List Value) (i : Nat) (f : String) : Except Failure Value :=
  match get? vs i with
  | some v => .ok v
  | none => .error (.argument i f .missing)

def table (vs : List Value) (i : Nat) (f : String) : Except Failure TableId :=
  match get? vs i with
  | some (.table t) => .ok t
  | _ => .error (mismatch vs i f "table")

def function (vs : List Value) (i : Nat) (f : String) : Except Failure FunctionId :=
  match get? vs i with
  | some (.function g) => .ok g
  | _ => .error (mismatch vs i f "function")

def thread (vs : List Value) (i : Nat) (f : String) : Except Failure ThreadId :=
  match get? vs i with
  | some (.thread c) => .ok c
  | _ => .error (mismatch vs i f "coroutine")

/-- The integer of a value given as an argument: an integer, an integral float, or a string that
reads as one of them. -/
def integerOf (got : Option Value) (i : Nat) (f : String) : Except Failure Int64 :=
  match got with
  | some (.integer n) => .ok n
  | some (.float x) =>
    match x.toInteger? with
    | some n => .ok n
    | none => .error (.argument i f .notInteger)
  | some (.string s) =>
    match (Numeral.read s).bind (·.toValue.integer?) with
    | some n => .ok n
    | none => .error (mismatchOf got i f "number")
  | _ => .error (mismatchOf got i f "number")

def integer (vs : List Value) (i : Nat) (f : String) : Except Failure Int64 :=
  integerOf (get? vs i) i f

def integerOr (vs : List Value) (i : Nat) (f : String) (default : Int64) : Except Failure Int64 :=
  if isOmitted vs i then .ok default else integer vs i f

/-- The text of a string or number. -/
def bytes (vs : List Value) (i : Nat) (f : String) : Except Failure Bytes :=
  match (get? vs i).bind Value.text? with
  | some s => .ok s
  | none => .error (mismatch vs i f "string")

def bytesOrEmpty (vs : List Value) (i : Nat) (f : String) : Except Failure Bytes :=
  if isOmitted vs i then .ok #[] else bytes vs i f

end Arguments

end LuaMachine
