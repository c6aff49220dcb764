import LuaMachine.Operation.Access

/-!
# Iteration

A loop runs on a triple: an iterator, a state and a control value.  Each round calls the iterator
with state and control; the first result is the next control, and nil ends the loop.
-/

namespace LuaMachine

structure Triple where
  iterator : Value
  state : Value
  control : Value
deriving DecidableEq, Repr

namespace Triple

/-- The first three values, nil where there are fewer. -/
def ofList (vs : List Value) : Triple := ⟨Value.nth vs 0, Value.nth vs 1, Value.nth vs 2⟩

def toList (t : Triple) : List Value := [t.iterator, t.state, t.control]

end Triple

namespace Action

/-- The triple that traverses a table, or the one its `__pairs` gives. -/
def pairs (v : Value) : Action Triple := do
  match ← metamethod? v .pairs with
  | some handler => return Triple.ofList (← call handler [v])
  | none =>
    match v with
    | .table _ => return ⟨.function Heap.nextFunction, v, .nil⟩
    | _ => fail (.argument 1 "pairs" (.expected "table" v.ty))

/-- The triple that counts through a value's fields `1, 2, …`, or the one its `__ipairs` gives. -/
def ipairs (v : Value) : Action Triple := do
  match ← metamethod? v .ipairs with
  | some handler => return Triple.ofList (← call handler [v])
  | none => return ⟨.function Heap.ipairsFunction, v, .integer 0⟩

/-- The entry after a key of a table: key and value, or a single nil after the last one. -/
def nextEntry (t : TableId) (key : Value) : Action (List Value) := do
  match (← table t).next key with
  | .ok (some (k, v)) => return [k, v]
  | .ok none => return [.nil]
  | .error c => complain c

/-- The step of `ipairs`: the next index and its field, or a single nil at the first absent one. -/
def ipairsStep (vs : List Value) : Action (List Value) := do
  let i := ((Value.nth vs 1).integer?.getD 0) + 1
  let v ← index (Value.nth vs 0) (.integer i)
  return if v.isNil then [.nil] else [.integer i, v]

/-- One round of an iteration: call the iterator, and the body unless the control is nil.  The body
ends the iteration by giving false. -/
def eachRound (iterator state control body : Value) : Action Turn := do
  let vs ← call iterator [state, control]
  let next := Value.first vs
  if next.isNil then return .finish []
  let r ← callFirst body vs
  if r = .boolean false then return .finish []
  return .again (.each iterator state next body)

end Action

end LuaMachine
