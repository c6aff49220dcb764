import LuaMachine.Operation.Call

/-!
# Indexing and length

Reading and writing fields with the `__index` and `__newindex` handlers, and the length operator
with `__len`.
-/

namespace LuaMachine

/-- The length of a string or table without metamethods. -/
def Heap.rawLength? (h : Heap) : Value → Option Nat
  | .string s => some s.size
  | .table t => some (h.table t).length
  | _ => none

namespace Action

def index (v key : Value) : Action Value := do
  match (← heap).lookup v key with
  | .value r => return r
  | .handler f owner => callFirst (.function f) [owner, key]
  | .failure f => fail f

def indexName (v : Value) (name : String) : Action Value := index v (.text name)

def newIndex (v key x : Value) : Action Unit := do
  match (← heap).place v key with
  | .table t => rawSet t key x
  | .handler f owner => discard <| callFunction f [owner, key, x]
  | .failure f => fail f

def length (v : Value) : Action Value := do
  match v with
  | .string s => return Value.count s.size
  | .table t =>
    match ← metamethod? v .length with
    | some handler => callFirst handler [v]
    | none => return Value.count (← table t).length
  | _ => fail (.operand .length v.ty)

end Action

end LuaMachine
