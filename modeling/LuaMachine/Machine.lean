import LuaMachine.Action

/-!
# The machine

The machine runs actions.  It keeps one strand of control for the top level and one for each
coroutine.  A strand is a stack of frames, each of which waits for the reply of a call, a loop, a
resume or a yield.  The running strand stands in front of those that wait for it in a resume.

A strand counts its open function calls.  A call past `Strand.maxDepth` fails without running.  The
count is the strand's own: the body of a coroutine starts from zero.

* `Machine.step`   one step, given what each job does;
* `Machine.run`    steps until the top level ends, at most as many as the fuel allows.
-/

namespace LuaMachine

/-- A place that waits for a reply. -/
structure Frame where
  /-- Whether the reply is that of a function call. -/
  isCall : Bool
  resume : Reply → Action Turn

/-- A thread of control: the top level, or a coroutine. -/
structure Strand where
  owner : Option ThreadId
  /-- The waiting frames, the innermost first. -/
  frames : List Frame
  /-- How many function calls are open. -/
  depth : Nat

namespace Strand

/-- How many function calls may be open on a strand. -/
def maxDepth : Nat := 256

def start (owner : Option ThreadId) : Strand := ⟨owner, [], 0⟩

def push (s : Strand) (f : Frame) : Strand :=
  { s with frames := f :: s.frames, depth := if f.isCall then s.depth + 1 else s.depth }

end Strand

/-- What a coroutine goes on with when it is resumed. -/
inductive Parked where
  /-- Its body has not started. -/
  | body (f : FunctionId)
  /-- Its body waits in a yield. -/
  | strand (s : Strand)
  /-- It runs, waits for another coroutine, or is dead. -/
  | nothing

structure Coroutine where
  status : Status
  parked : Parked

structure Machine where
  heap : Heap
  coroutines : Array Coroutine
  /-- The strand that runs. -/
  current : Strand
  /-- The strands that wait in a resume, the innermost first. -/
  waiting : List Strand

inductive Progress where
  | next (m : Machine) (a : Action Turn)
  /-- The top level has ended. -/
  | halt (m : Machine) (r : Reply)

namespace Machine

def initial (h : Heap) : Machine := ⟨h, #[], Strand.start none, []⟩

def roster (m : Machine) : Roster := ⟨m.coroutines.map (·.status), m.current.owner⟩

def setCoroutine (m : Machine) (c : ThreadId) (co : Coroutine) : Machine :=
  { m with coroutines := m.coroutines.setIfInBounds c.index co }

/-- Give a strand's coroutine a status, with nothing parked. -/
def mark (m : Machine) (owner : Option ThreadId) (s : Status) : Machine :=
  match owner with
  | some c => m.setCoroutine c ⟨s, .nothing⟩
  | none => m

/-- The reply that a call gives: leaving the function is its result. -/
def callReply : Reply → Reply
  | .error (.left vs) => .ok vs
  | r => r

/-- The reply that the end of a coroutine gives to its resumer: an abort is a failure. -/
def finalReply : Reply → Reply
  | .error (.crashed text) => .error (.failed (.raised (.string text)))
  | r => r

/-- The action that ends with a reply. -/
def answer : Reply → Action Turn
  | .ok vs => .done (.finish vs)
  | .error e => .exit e

/-- Hand a reply to the innermost frame.  A strand without frames has ended: its coroutine is dead
and its resumer gets the reply. -/
def deliver (m : Machine) (r : Reply) : Progress :=
  match m.current.frames with
  | f :: rest =>
    let depth := if f.isCall then m.current.depth - 1 else m.current.depth
    .next { m with current := { m.current with frames := rest, depth } }
      (f.resume (if f.isCall then callReply r else r))
  | [] =>
    match m.waiting with
    | [] => .halt m (callReply r)
    | s :: waiting =>
      let m := (m.mark m.current.owner .dead).mark s.owner .running
      .next { m with current := s, waiting } (answer (finalReply r))

/-- Suspend the running coroutine: park its strand and answer its resumer.  At the top level there
is nobody to answer. -/
def suspend (m : Machine) (vs : List Value) (k : Reply → Action Turn) : Progress :=
  match m.current.owner, m.waiting with
  | some c, s :: waiting =>
    let parked := Parked.strand (m.current.push ⟨false, k⟩)
    let m := (m.setCoroutine c ⟨.suspended, parked⟩).mark s.owner .running
    .next { m with current := s, waiting } (answer (.ok vs))
  | _, _ => .next m (k (.error (.failed (.coroutine .outside))))

/-- Resume a coroutine: the running strand waits, and the coroutine's strand goes on.  A coroutine
that is not suspended refuses, and nothing changes. -/
def resume (m : Machine) (c : ThreadId) (vs : List Value) (k : Reply → Action Turn) : Progress :=
  let refuse (s : Status) : Progress :=
    .next m (k (.error (.failed (.coroutine (.notSuspended s)))))
  match m.coroutines[c.index]? with
  | none => refuse .dead
  | some co =>
    match co.status, co.parked with
    | .suspended, .body f =>
      let m' := (m.mark m.current.owner .normal).setCoroutine c ⟨.running, .nothing⟩
      .next { m' with
          current := Strand.start (some c)
          waiting := m.current.push ⟨false, k⟩ :: m.waiting }
        (.run (.function f vs) answer)
    | .suspended, .strand s =>
      let m' := (m.mark m.current.owner .normal).setCoroutine c ⟨.running, .nothing⟩
      .next { m' with
          current := s
          waiting := m.current.push ⟨false, k⟩ :: m.waiting }
        (answer (.ok vs))
    | s, _ => refuse s

/-- Begin a job.  A function call past the depth limit fails at once. -/
def begin (body : Job → Action Turn) (m : Machine) (j : Job) (k : Reply → Action Turn) : Progress :=
  match j with
  | .function _ _ =>
    if Strand.maxDepth ≤ m.current.depth then .next m (k (.error (.failed .stackOverflow)))
    else .next { m with current := m.current.push ⟨true, k⟩ } (body j)
  | _ => .next { m with current := m.current.push ⟨false, k⟩ } (body j)

/-- One step of the machine, given what each job does. -/
def step (body : Job → Action Turn) (m : Machine) : Action Turn → Progress
  | .done (.finish vs) => m.deliver (.ok vs)
  | .done (.again j) => .next m (body j)
  | .exit e => m.deliver (.error e)
  | .read k => .next m (k m.heap)
  | .write f k => .next { m with heap := f m.heap } k
  | .run j k => m.begin body j k
  | .spawn f k =>
    .next { m with coroutines := m.coroutines.push ⟨.suspended, .body f⟩ }
      (k ⟨m.coroutines.size⟩)
  | .resume c vs k => m.resume c vs k
  | .yield vs k => m.suspend vs k
  | .inspect k => .next m (k m.roster)

/-- Steps until the top level ends; nothing if the fuel runs out first. -/
def run (body : Job → Action Turn) : Nat → Machine → Action Turn → Option (Machine × Reply)
  | 0, _, _ => none
  | fuel + 1, m, a =>
    match m.step body a with
    | .next m a => run body fuel m a
    | .halt m r => some (m, r)

end Machine

end LuaMachine
