import LuaMachine.Library.Arguments

/-!
# The coroutine library

Creating, resuming and suspending coroutines, and asking for their status.
-/

namespace LuaMachine.Library.Coroutines

open Arguments

def create (vs : List Value) : Action (List Value) := do
  let f ← function vs 1 "create"
  return [.thread (← Action.create f)]

/-- A function that resumes a new coroutine. -/
def wrapped (f : FunctionId) : Action Value := do
  Action.newFunction (.wrapper (← Action.create f))

def wrap (vs : List Value) : Action (List Value) := do
  let f ← function vs 1 "wrap"
  return [← wrapped f]

def resume (vs : List Value) : Action (List Value) := do
  let c ← thread vs 1 "resume"
  (Action.resumeThread c (vs.drop 1)).guarded

def yield (vs : List Value) : Action (List Value) := Action.yieldValues vs

def status (vs : List Value) : Action (List Value) := do
  let c ← thread vs 1 "status"
  return [.text ((← Action.roster).status c).name]

/-- The running coroutine and false, or nil and true at the top level. -/
def running (_ : List Value) : Action (List Value) := do
  match (← Action.roster).current with
  | some c => return [.thread c, .boolean false]
  | none => return [.nil, .boolean true]

def isyieldable (_ : List Value) : Action (List Value) := do
  return [.boolean (← Action.roster).current.isSome]

end LuaMachine.Library.Coroutines
