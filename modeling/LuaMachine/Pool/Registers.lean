import LuaMachine.Bytes.Utf8
import LuaMachine.Pool

/-!
# Named string handles

Registers are names that hold handles to strings.  Storing into a register releases the handle it
held before, after the new one was made.  `PoolRegisters.execute` carries out one command and
answers it.
-/

namespace LuaMachine

structure PoolRegisters where
  pool : Pool
  held : Std.HashMap String StringId

inductive PoolCommand where
  | intern (r : String) (bs : Bytes)
  | own (r : String) (bs : Bytes)
  /-- Intern the strings `stem-0`, …, `stem-(n-1)` into registers of the same names. -/
  | many (stem : String) (n : Nat)
  | drop (r : String)
  | dropAll
  | info (r : String)
  /-- Whether two registers hold the same string object. -/
  | same (r q : String)
  | equal (r q : String)
  | compare (r q : String)
  | hash (bs : Bytes)
  /-- The number of live pooled strings. -/
  | count

inductive PoolAnswer where
  | truth (b : Bool)
  | cell (c : Cell)
  | order (o : Ordering)
  | hash (h : UInt64)
  | count (n : Nat)
  /-- The command names an empty register. -/
  | missing

namespace PoolRegisters

def initial : PoolRegisters := ⟨Pool.empty, {}⟩

/-- The one thread that the registers belong to. -/
def thread : Nat := 0

def release (s : PoolRegisters) (r : String) : PoolRegisters :=
  match s.held[r]? with
  | some id =>
    match s with
    | ⟨pool, held⟩ => ⟨pool.drop id, held.erase r⟩
  | none => s

def store (s : PoolRegisters) (r : String) (id : StringId) : PoolRegisters :=
  match s.release r with
  | ⟨pool, held⟩ => ⟨pool, held.insert r id⟩

/-- Put the handle that the pool makes into a register. -/
def storeMade (s : PoolRegisters) (r : String) (make : Pool → Pool × StringId) : PoolRegisters :=
  match s with
  | ⟨pool, held⟩ =>
    let (pool, id) := make pool
    store ⟨pool, held⟩ r id

def intern (s : PoolRegisters) (r : String) (bs : Bytes) : PoolRegisters :=
  s.storeMade r (·.intern thread bs)

def cell? (s : PoolRegisters) (r : String) : Option Cell := s.held[r]?.bind s.pool.cell?

/-- Answer with what two registers hold. -/
def both (s : PoolRegisters) (r q : String) (f : Cell → Cell → PoolAnswer) : PoolAnswer :=
  match s.cell? r, s.cell? q with
  | some a, some b => f a b
  | _, _ => .missing

def execute (s : PoolRegisters) : PoolCommand → PoolRegisters × PoolAnswer
  | .intern r bs => (s.intern r bs, .truth true)
  | .own r bs => (s.storeMade r (·.own bs), .truth true)
  | .many stem n =>
    let names := (List.range n).map fun i => stem ++ "-" ++ i.repr
    (names.foldl (fun s name => s.intern name (Bytes.ofString name)) s, .truth true)
  | .drop r => (s.release r, .truth (s.held.contains r))
  | .dropAll => (s.held.keys.foldl release s, .truth true)
  | .info r =>
    match s.cell? r with
    | some c => (s, .cell c)
    | none => (s, .missing)
  | .same r q => (s, .truth (s.held[r]? == s.held[q]?))
  | .equal r q => (s, s.both r q fun a b => .truth (a.bytes == b.bytes))
  | .compare r q => (s, s.both r q fun a b => .order (a.bytes.compare b.bytes))
  | .hash bs => (s, .hash bs.fnv1a)
  | .count =>
    let (pool, n) := s.pool.liveCount
    ({ s with pool }, .count n)

end PoolRegisters

end LuaMachine
