import LuaMachine.Heap

/-!
# Actions

An `Action` is a computation of the machine that can be suspended anywhere: it is a value that says
what to do next and how to go on with the answer.  Library functions and scripts are actions; the
machine runs them (`LuaMachine.Machine`).  Since a call hands its continuation to the machine, a
coroutine may be suspended inside any of them.

An action reads and writes the heap, runs a job (a function call or a loop), and asks for coroutines
to be created, resumed, suspended or looked at.  It cannot touch the control state of coroutines in
any other way.

* `Exit`      how an activation ends without a result;
* `Job`       what an activation runs;
* `Action`    computations, a monad.
-/

namespace LuaMachine

/-- Why an activation ends before its end. -/
inductive Exit where
  | failed (f : Failure)
  /-- The current function is left with these values. -/
  | left (vs : List Value)
  /-- The coroutine is aborted; only its boundary catches this. -/
  | crashed (text : Bytes)
deriving DecidableEq, Repr

abbrev Reply := Except Exit (List Value)

/-- Where the variables and arguments of the current function are. -/
structure Scope where
  frame : Nat
  arguments : List Value
deriving DecidableEq, Repr

/-- What an activation runs. -/
inductive Job where
  /-- A function call. -/
  | function (f : FunctionId) (arguments : List Value)
  /-- A loop of a script, from its condition on. -/
  | whileLoop (condition : Expr) (body : List Expr) (scope : Scope)
  /-- An iteration: call the iterator with state and control, then the body on what it gives. -/
  | each (iterator state control body : Value)

/-- How a round of a job ends: with its result, or with another round. -/
inductive Turn where
  | finish (vs : List Value)
  | again (j : Job)

/-- What can be seen of the coroutines: the status of each, and which one is running. -/
structure Roster where
  statuses : Array Status
  current : Option ThreadId
deriving DecidableEq, Repr

def Roster.status (r : Roster) (c : ThreadId) : Status := r.statuses.getD c.index .dead

inductive Action (α : Type) where
  | done (a : α)
  | exit (e : Exit)
  | read (k : Heap → Action α)
  | write (f : Heap → Heap) (k : Action α)
  /-- Run a job and go on with its reply. -/
  | run (j : Job) (k : Reply → Action α)
  /-- Create a coroutine. -/
  | spawn (f : FunctionId) (k : ThreadId → Action α)
  /-- Resume a coroutine and go on with what it yields, returns or fails with. -/
  | resume (c : ThreadId) (vs : List Value) (k : Reply → Action α)
  /-- Suspend the running coroutine and go on with what it is resumed with. -/
  | yield (vs : List Value) (k : Reply → Action α)
  | inspect (k : Roster → Action α)

namespace Action

variable {α β : Type}

def bind : Action α → (α → Action β) → Action β
  | .done a, f => f a
  | .exit e, _ => .exit e
  | .read k, f => .read fun h => (k h).bind f
  | .write g k, f => .write g (k.bind f)
  | .run j k, f => .run j fun r => (k r).bind f
  | .spawn g k, f => .spawn g fun c => (k c).bind f
  | .resume c vs k, f => .resume c vs fun r => (k r).bind f
  | .yield vs k, f => .yield vs fun r => (k r).bind f
  | .inspect k, f => .inspect fun r => (k r).bind f

instance : Monad Action where
  pure := .done
  bind := bind

theorem bind_done (a : Action α) : a.bind .done = a := by
  induction a with
  | done a => rfl
  | exit e => rfl
  | read k ih => exact congrArg Action.read (funext ih)
  | write g k ih => exact congrArg (Action.write g) ih
  | run j k ih => exact congrArg (Action.run j) (funext ih)
  | spawn g k ih => exact congrArg (Action.spawn g) (funext ih)
  | resume c vs k ih => exact congrArg (Action.resume c vs) (funext ih)
  | yield vs k ih => exact congrArg (Action.yield vs) (funext ih)
  | inspect k ih => exact congrArg Action.inspect (funext ih)

theorem bind_assoc {γ : Type} (a : Action α) (f : α → Action β) (g : β → Action γ) :
    (a.bind f).bind g = a.bind fun x => (f x).bind g := by
  induction a with
  | done a => rfl
  | exit e => rfl
  | read k ih => exact congrArg Action.read (funext ih)
  | write h k ih => exact congrArg (Action.write h) ih
  | run j k ih => exact congrArg (Action.run j) (funext ih)
  | spawn h k ih => exact congrArg (Action.spawn h) (funext ih)
  | resume c vs k ih => exact congrArg (Action.resume c vs) (funext ih)
  | yield vs k ih => exact congrArg (Action.yield vs) (funext ih)
  | inspect k ih => exact congrArg Action.inspect (funext ih)

instance : LawfulMonad Action :=
  LawfulMonad.mk' Action bind_done (fun _ _ => rfl) bind_assoc

/-! ## failing -/

def fail (f : Failure) : Action α := .exit (.failed f)

def complain (c : Complaint) : Action α := fail (.complaint c)

/-- Go on with a result, or fail. -/
def ofExcept : Except Failure α → Action α
  | .ok a => .done a
  | .error f => fail f

/-- Go on with the values of a reply, or end as it does. -/
def ofReply : Reply → Action (List Value)
  | .ok vs => .done vs
  | .error e => .exit e

/-! ## the heap -/

def heap : Action Heap := .read .done

def update (f : Heap → Heap) : Action Unit := .write f (.done ())

def table (t : TableId) : Action Table := .read fun h => .done (h.table t)

def modifyTable (t : TableId) (f : Table → Table) : Action Unit := update (·.modifyTable t f)

def newTable (t : Table) : Action Value :=
  .read fun h => .write (·.addTable t) (.done (.table h.nextTable))

def newFunction (f : Function) : Action Value :=
  .read fun h => .write (·.addFunction f) (.done (.function h.nextFunctionId))

def metamethod? (v : Value) (m : Metamethod) : Action (Option Value) :=
  .read fun h => .done (h.metamethod? v m)

/-- Store an entry in a table without looking at handlers. -/
def rawSet (t : TableId) (key v : Value) : Action Unit :=
  match key.key? with
  | some k => modifyTable t (·.setKey k v)
  | none => fail (.badKey (if key.isNil then .nil else .nan))

/-- Insert a value at a position of the array part, or just past its end. -/
def insertAt (t : TableId) (position : Int64) (v : Value) : Action Unit := do
  if (← table t).hasRoomAt position then modifyTable t (·.insertAt position v)
  else complain .position

def removeAt (t : TableId) (position : Int64) : Action Value := do
  let values ← table t
  if (values.slot? position).isSome then
    modifyTable t (·.removeAt position)
    return values.getInt position
  else complain .position

/-! ## calls and coroutines -/

/-- Run a job and go on with its values. -/
def perform (j : Job) : Action (List Value) := .run j ofReply

def callFunction (f : FunctionId) (vs : List Value) : Action (List Value) :=
  perform (.function f vs)

def create (f : FunctionId) : Action ThreadId := .spawn f .done

def resumeThread (c : ThreadId) (vs : List Value) : Action (List Value) := .resume c vs ofReply

def yieldValues (vs : List Value) : Action (List Value) := .yield vs ofReply

def roster : Action Roster := .inspect .done

/-- An action whose failure is caught: its values after true, or the failure's value after false.
Leaving the function and aborting the coroutine are not caught. -/
def guarded : Action (List Value) → Action (List Value)
  | .done vs => .done (.boolean true :: vs)
  | .exit (.failed f) => .done [.boolean false, f.value]
  | .exit e => .exit e
  | .read k => .read fun h => (k h).guarded
  | .write g k => .write g k.guarded
  | .run j k => .run j fun r => (k r).guarded
  | .spawn g k => .spawn g fun c => (k c).guarded
  | .resume c vs k => .resume c vs fun r => (k r).guarded
  | .yield vs k => .yield vs fun r => (k r).guarded
  | .inspect k => .inspect fun r => (k r).guarded

/-- The action as one round of a job. -/
def asTurn (a : Action (List Value)) : Action Turn := a.bind fun vs => .done (.finish vs)

end Action

end LuaMachine
