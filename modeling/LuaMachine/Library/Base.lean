import LuaMachine.Library.Arguments
import LuaMachine.Operation.Compare
import LuaMachine.Operation.Iterate
import LuaMachine.Operation.Text

/-!
# The base library

Types, conversions, raw access, metatables, argument lists, failures, and traversal.
-/

namespace LuaMachine.Library.Base

open Arguments

def type (vs : List Value) : Except Failure (List Value) := do
  let v ← required vs 1 "type"
  return [.text v.ty.name]

def tostring (vs : List Value) : Action (List Value) := do
  let v ← required vs 1 "tostring"
  return [← Action.tostring v]

/-- A number from a number or numeral; in a given base, an integer from a string. -/
def tonumber (vs : List Value) : Except Failure (List Value) := do
  let v ← required vs 1 "tonumber"
  if isOmitted vs 2 then
    match v with
    | .integer _ | .float _ => return [v]
    | .string s => return [((Numeral.read s).map Numeral.toValue).getD .nil]
    | _ => return [.nil]
  else
    let base ← integer vs 2 "tonumber"
    if base < 2 || 36 < base then throw (.argument 2 "tonumber" .baseRange)
    match v with
    | .string s => return [((Numeral.readBase s base.toInt.toNat).map Value.integer).getD .nil]
    | _ => throw (mismatch vs 1 "tonumber" "string")

def pairs (vs : List Value) : Action (List Value) := do
  let v ← required vs 1 "pairs"
  return (← Action.pairs v).toList

def ipairs (vs : List Value) : Action (List Value) := do
  let v ← required vs 1 "ipairs"
  return (← Action.ipairs v).toList

def next (vs : List Value) : Action (List Value) := do
  let t ← table vs 1 "next"
  Action.nextEntry t (Value.nth vs 1)

def rawget (vs : List Value) : Action (List Value) := do
  let t ← table vs 1 "rawget"
  let k ← required vs 2 "rawget"
  return [(← Action.table t).rawGet k]

def rawset (vs : List Value) : Action (List Value) := do
  let t ← table vs 1 "rawset"
  let k ← required vs 2 "rawset"
  let v ← required vs 3 "rawset"
  Action.rawSet t k v
  return [.table t]

def rawequal (vs : List Value) : Except Failure (List Value) := do
  let a ← required vs 1 "rawequal"
  let b ← required vs 2 "rawequal"
  return [.boolean (a.rawEq b)]

def rawlen (vs : List Value) : Action (List Value) := do
  match (get? vs 1).bind (← Action.heap).rawLength? with
  | some n => return [Value.count n]
  | none => Action.fail (.argument 1 "rawlen" .noLength)

/-- The field `__metatable` of a metatable, which protects it. -/
def protection (h : Heap) (mt : TableId) : Value := (h.table mt).rawGet Metamethod.metatable.key

def setmetatable (vs : List Value) : Action (List Value) := do
  let t ← table vs 1 "setmetatable"
  let mt ← match get? vs 2 with
    | some .nil => pure none
    | some (.table mt) => pure (some mt)
    | _ => Action.fail (mismatch vs 2 "setmetatable" "nil or table")
  let h ← Action.heap
  match (h.table t).metatable with
  | some old => if !(protection h old).isNil then Action.complain .protectedMetatable
  | none => pure ()
  Action.modifyTable t fun table => { table with metatable := mt }
  return [.table t]

def getmetatable (vs : List Value) : Action (List Value) := do
  let v ← required vs 1 "getmetatable"
  let h ← Action.heap
  match h.metatable? v with
  | none => return [.nil]
  | some mt =>
    let p := protection h mt
    return [if p.isNil then .table mt else p]

/-- Where the selection of arguments with a number starts, of `count` arguments; a negative number
counts from the end. -/
def selectStart (n : Int64) (count : Nat) : Option Nat :=
  let start : Int := if n.toInt < 0 then count + n.toInt else n.toInt - 1
  if n = 0 ∨ start < 0 then none else some start.toNat

def select (vs : List Value) : Except Failure (List Value) := do
  let selector ← required vs 1 "select"
  let rest := vs.drop 1
  if selector = .text "#" then return [Value.count rest.length]
  let n ← integer vs 1 "select"
  match selectStart n rest.length with
  | some i => return rest.drop i
  | none => throw (.argument 1 "select" .indexRange)

def error (vs : List Value) : Except Failure (List Value) := throw (.raised (Value.first vs))

def pcall (vs : List Value) : Action (List Value) := do
  let f ← required vs 1 "pcall"
  (Action.call f (vs.drop 1)).guarded

def assert (vs : List Value) : Except Failure (List Value) := do
  let condition ← required vs 1 "assert"
  if condition.truthy then return vs
  match get? vs 2 with
  | some message => throw (.raised message)
  | none => throw (.complaint .assertion)

/-- Collect garbage; nothing of it can be seen. -/
def collectgarbage (vs : List Value) : Except Failure (List Value) := do
  if !isOmitted vs 1 then
    let option ← bytes vs 1 "collectgarbage"
    if option != Bytes.ofString "collect" then
      throw (.argument 1 "collectgarbage" (.unknownOption option))
  return [.integer 0]

end LuaMachine.Library.Base
