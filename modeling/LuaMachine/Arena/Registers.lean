import LuaMachine.Arena.Sweep

/-!
# Named table handles

Registers are names that hold handles to the tables of an arena; they are the only handles outside
the tables.  Storing into a register releases the handle it held before.
`ArenaRegisters.execute` carries out one command and answers it.
-/

namespace LuaMachine

structure ArenaRegisters where
  arena : Arena
  held : List (String × TableId)

inductive ArenaCommand where
  | new (r : String)
  /-- A second handle to the table of `q`. -/
  | alias (r q : String)
  | setMetatable (r : String) (q : Option String)
  | put (r : String) (key : Value) (q : Option String)
  | drop (r : String)
  /-- Store the table under a key of `q`. -/
  | get (r q : String) (key : Value)
  /-- Store the metatable of `q`. -/
  | getMetatable (r q : String)
  | same (r q : String)
  | size (r : String)
  /-- Make `n` rings of `k` tables that nothing else holds. -/
  | rings (n k : Nat)
  | collect

inductive ArenaAnswer where
  | nothing
  | truth (b : Bool)
  | size (length hashLength : Nat)
  | count (n : Nat)
deriving DecidableEq, Repr

namespace ArenaRegisters

def initial : ArenaRegisters := ⟨Arena.empty, []⟩

def get? (s : ArenaRegisters) (r : String) : Option TableId := s.held.lookup r

def release (s : ArenaRegisters) (r : String) : ArenaRegisters :=
  match s.get? r with
  | some t => ⟨s.arena.drop t, s.held.filter (·.1 != r)⟩
  | none => s

/-- Put a handle that was just made into a register. -/
def store (s : ArenaRegisters) (r : String) (t : TableId) : ArenaRegisters :=
  let s := s.release r
  { s with held := (r, t) :: s.held }

/-- Put one more handle to a table into a register, and say whether there was a table. -/
def storeFound (s : ArenaRegisters) (r : String) : Option TableId → ArenaRegisters × ArenaAnswer
  | some t => ({ s with arena := s.arena.hold t }.store r t, .truth true)
  | none => (s, .truth false)

/-- Make tables whose metatables form a ring, and release the handles to them. -/
def ring (a : Arena) (k : Nat) : Arena :=
  let (a, ts) := (List.range k).foldl
    (fun (a, ts) _ => let (a, t) := a.create; (a, ts ++ [t])) (a, ([] : List TableId))
  let a := (ts.zip (ts.drop 1 ++ ts.take 1)).foldl (fun a (t, next) => a.setMetatable t next) a
  ts.foldl Arena.drop a

def execute (s : ArenaRegisters) : ArenaCommand → ArenaRegisters × ArenaAnswer
  | .new r =>
    let (arena, t) := s.arena.create
    ({ s with arena }.store r t, .nothing)
  | .alias r q =>
    match s.get? q with
    | some t => ({ s with arena := s.arena.hold t }.store r t, .nothing)
    | none => (s, .nothing)
  | .setMetatable r q =>
    match s.get? r with
    | some t => ({ s with arena := s.arena.setMetatable t (q.bind s.get?) }, .nothing)
    | none => (s, .nothing)
  | .put r key q =>
    match s.get? r with
    | some t =>
      let value := ((q.bind s.get?).map Value.table).getD .nil
      ({ s with arena := s.arena.put t key value }, .nothing)
    | none => (s, .nothing)
  | .drop r => (s.release r, .truth (s.get? r).isSome)
  | .get r q key =>
    s.storeFound r ((s.get? q).bind fun t => ((s.arena.table t).rawGet key).reference?)
  | .getMetatable r q => s.storeFound r ((s.get? q).bind s.arena.metatable?)
  | .same r q => (s, .truth (s.get? r == s.get? q))
  | .size r =>
    match s.get? r with
    | some t => (s, .size (s.arena.table t).length (s.arena.table t).hashLength)
    | none => (s, .nothing)
  | .rings n k => ({ s with arena := (List.range n).foldl (fun a _ => ring a k) s.arena }, .nothing)
  | .collect =>
    let (arena, n) := s.arena.collect
    ({ s with arena }, .count n)

end ArenaRegisters

end LuaMachine
