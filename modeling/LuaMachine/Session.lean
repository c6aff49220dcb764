import LuaMachine.Library.Catalog
import LuaMachine.Library.Dispatch
import LuaMachine.Machine
import LuaMachine.Script.Eval

/-!
# Sessions

A session is a machine between two top-level steps: its heap and its coroutines.  Each step runs an
action at the top level to its end and leaves a session for the next one.

* `Job.body`       what each job does: library functions, scripts, wrapped coroutines, iterators;
* `Session.start`   a session with some libraries loaded;
* `Session.step`   run an action at the top level.
-/

namespace LuaMachine

/-- What a function does when it is called with arguments. -/
def Function.body (f : FunctionId) (vs : List Value) : Function → Action (List Value)
  | .builtin b => b.run vs
  | .script body => Expr.invoke body vs
  | .wrapper c => Action.resumeThread c vs
  | .matches s p c => Library.Text.nextMatch f s p c

def Job.body : Job → Action Turn
  | .function f vs => .read fun h => ((h.function f).body f vs).asTurn
  | .whileLoop condition body s => Expr.whileRound condition body s
  | .each iterator state control body => Action.eachRound iterator state control body

structure Session where
  heap : Heap
  coroutines : Array Coroutine

/-- How a top-level step ends. -/
inductive Outcome where
  | values (vs : List Value)
  | failure (f : Failure)
  /-- The step was given up after too many steps of the machine. -/
  | unfinished
deriving DecidableEq, Repr

/-- A finished step: how it ended, and what it recorded, in order. -/
structure StepReport where
  outcome : Outcome
  log : List (List Sighting)

namespace Session

def start (libraries : List Library) : Session :=
  ⟨libraries.foldl Heap.load Heap.initial, #[]⟩

/-- The largest number of machine steps in one top-level step. -/
def fuel : Nat := 1000000000

/-- The end of a top-level step.  An abort at the top level is a failure. -/
def outcome : Reply → Outcome
  | .ok vs => .values vs
  | .error (.failed f) => .failure f
  | .error (.left vs) => .values vs
  | .error (.crashed text) => .failure (.raised (.string text))

def roster (s : Session) : Roster := ⟨s.coroutines.map (·.status), none⟩

/-- The machine that a top-level step starts with. -/
def machine (s : Session) : Machine :=
  { Machine.initial { s.heap with log := [] } with coroutines := s.coroutines }

/-- Run an action at the top level. -/
def step (s : Session) (a : Action (List Value)) : Session × StepReport :=
  match s.machine.run Job.body fuel a.asTurn with
  | none => (s, ⟨.unfinished, []⟩)
  | some (m, r) => (⟨m.heap, m.coroutines⟩, ⟨outcome r, m.heap.log.reverse⟩)

/-- Run an expression of a script at the top level, as an invocation of its own. -/
def eval (s : Session) (e : Expr) : Session × StepReport := s.step (Expr.invoke [e] [])

end Session

end LuaMachine
