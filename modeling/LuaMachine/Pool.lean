import LuaMachine.Bytes.Hash
import Std.Data.HashMap

/-!
# The string pool

Short strings are pooled: while some handle to a pooled string is alive, asking for its content
gives that very string.  The pool itself holds strings weakly, by content hash.  Entries of strings
that have been released stay until a look-up meets them or a sweep removes them; a sweep comes when
the entries reach a threshold that follows the number of survivors.  In front of the pool each
thread has a small cache, in which a string is found by the low bits of its hash.

* `Cell`               a string object: its bytes, and how many handles keep it alive;
* `Pool.intern`        a handle to the pooled string with given bytes;
* `Pool.own`           a handle to a string object of its own;
* `Pool.clone`, `Pool.drop`   one handle more, one handle less;
* `Pool.sweep`, `Pool.liveCount`   remove the entries of released strings, and count the others.
-/

namespace LuaMachine

structure StringId where
  index : Nat
deriving DecidableEq, Inhabited, Repr

structure Cell where
  bytes : Bytes
  hash : UInt64
  interned : Bool
  /-- How many handles to the string are alive. -/
  handles : Nat
deriving DecidableEq, Repr

/-- A place in the cache of a thread. -/
structure CacheSlot where
  thread : Nat
  slot : Nat
deriving DecidableEq, Hashable, Repr

structure Pool where
  cells : Array Cell
  /-- The entries with each hash. -/
  buckets : Std.HashMap UInt64 (List StringId)
  /-- How many entries the buckets have. -/
  count : Nat
  /-- The number of entries at which the pool is swept. -/
  sweepAt : Nat
  cache : Std.HashMap CacheSlot StringId

namespace Pool

/-- The largest size of a pooled string. -/
def shortLimit : Nat := 40

/-- The least number of entries at which the pool is swept. -/
def sweepThreshold : Nat := 1024

def cacheSize : Nat := 256

def empty : Pool := ⟨#[], {}, 0, sweepThreshold, {}⟩

/-! ## string objects -/

def cell? (p : Pool) (s : StringId) : Option Cell := p.cells[s.index]?

/-- Some handle to the string is alive. -/
def isLive (p : Pool) (s : StringId) : Bool :=
  match p.cell? s with
  | some c => 0 < c.handles
  | none => false

def hasBytes (p : Pool) (s : StringId) (bs : Bytes) : Bool :=
  match p.cell? s with
  | some c => c.bytes == bs
  | none => false

def adjust (p : Pool) (s : StringId) (f : Nat → Nat) : Pool :=
  { p with cells := p.cells.modify s.index fun c => { c with handles := f c.handles } }

def clone (p : Pool) (s : StringId) : Pool := p.adjust s (· + 1)

def drop (p : Pool) (s : StringId) : Pool := p.adjust s (· - 1)

/-- A new string object with one handle. -/
def allocate (p : Pool) (bs : Bytes) (interned : Bool) : Pool × StringId :=
  let s : StringId := ⟨p.cells.size⟩
  ({ p with cells := p.cells.push ⟨bs, bs.fnv1a, interned, 1⟩ }, s)

/-- A string object outside the pool. -/
def own (p : Pool) (bs : Bytes) : Pool × StringId := p.allocate bs false

/-! ## the entries -/

def bucket (p : Pool) (hash : UInt64) : List StringId := p.buckets.getD hash []

def setBucket (p : Pool) (hash : UInt64) (entries : List StringId) : Pool :=
  { p with buckets := p.buckets.insert hash entries }

/-- The entries of live strings in a bucket, if there are any. -/
def survivors (p : Pool) (entries : List StringId) : Option (List StringId) :=
  match entries.filter p.isLive with
  | [] => none
  | live => some live

/-- Remove the entries of released strings, and set the next threshold. -/
def sweep (p : Pool) : Pool :=
  let buckets := p.buckets.filterMap fun _ entries => p.survivors entries
  let count := buckets.fold (fun n _ entries => n + entries.length) 0
  { p with buckets, count, sweepAt := max (count * 2) sweepThreshold }

/-- The number of live pooled strings. -/
def liveCount (p : Pool) : Pool × Nat := let p := p.sweep; (p, p.count)

/-- Look a string up among the entries, and enter it if it is absent.  Entries of released strings
with its hash are removed on the way. -/
def enter (p : Pool) (bs : Bytes) : Pool × StringId :=
  let hash := bs.fnv1a
  let old := p.bucket hash
  let live := old.filter p.isLive
  let p := { p with count := p.count - (old.length - live.length) }
  match live.find? (p.hasBytes · bs) with
  | some s => ((p.setBucket hash live).clone s, s)
  | none =>
    let (p, s) := p.allocate bs true
    let p := { p with count := p.count + 1 }
    let p := p.setBucket hash (live ++ [s])
    (if p.sweepAt ≤ p.count then p.sweep else p, s)

/-! ## the caches -/

/-- The place that a hash has in a cache. -/
def slotOf (thread : Nat) (hash : UInt64) : CacheSlot := ⟨thread, hash.toNat % cacheSize⟩

/-- The live string with these bytes in a cache, if there is one. -/
def cached? (p : Pool) (at' : CacheSlot) (bs : Bytes) : Option StringId :=
  p.cache[at']?.filter fun s => p.isLive s && p.hasBytes s bs

def setCache (p : Pool) (at' : CacheSlot) (s : StringId) : Pool :=
  { p with cache := p.cache.insert at' s }

/-- A handle to the string with these bytes, for a thread: the pooled one if it is short, a string
of its own if it is long. -/
def intern (p : Pool) (thread : Nat) (bs : Bytes) : Pool × StringId :=
  if shortLimit < bs.size then p.own bs
  else
    let at' := slotOf thread bs.fnv1a
    match p.cached? at' bs with
    | some s => (p.clone s, s)
    | none =>
      let (p, s) := p.enter bs
      (p.setCache at' s, s)

end Pool

end LuaMachine
